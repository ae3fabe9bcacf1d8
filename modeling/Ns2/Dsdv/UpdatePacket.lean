import Ns2.Dsdv.Table
import Mathlib.Algebra.Order.Ring.Nat

namespace Ns2

namespace RtableEnt

def advert (e : RtableEnt) : Advert := ⟨e.dst, e.metric, e.seqnum⟩

/-- The value as an `unsigned char`. -/
def byte (x : ℕ) : ℕ := x % 2 ^ 8

/-- What `makeUpdate` writes for an entry. -/
def advertBytes (e : RtableEnt) : List ℕ :=
  [byte (e.dst >>> 24), byte (e.dst >>> 16), byte (e.dst >>> 8), byte e.dst, byte e.metric,
    byte (e.seqnum >>> 24), byte (e.seqnum >>> 16), byte (e.seqnum >>> 8), byte e.seqnum]

/-- The fields that go into an update fit there. -/
structure Sized (e : RtableEnt) : Prop where
  dst : e.dst < 2 ^ 32
  metric : e.metric ≤ big
  seqnum : e.seqnum < 2 ^ 32

end RtableEnt

namespace DsdvAgent

open RtableEnt

/-- The second loop of `makeUpdate`: the entries that it leaves, the bytes that it writes, and what is left of `change_count`. -/
def advertLoop (now : ℚ) (periodic : Bool) : List RtableEnt → ℤ → List RtableEnt × List ℕ × ℤ
  | [], count => ([], [], count)
  | e :: rest, count =>
    if e.advertised now periodic then
      let rest := advertLoop now periodic rest (count - 1)
      (e.afterAdvert periodic :: rest.1, e.advertBytes ++ rest.2.1, rest.2.2)
    else
      let rest := advertLoop now periodic rest count
      (e :: rest.1, rest.2)

/-- The entry of the agent for itself is renewed for a full update. -/
def renewed (a : DsdvAgent) (now : ℚ) (full : Bool) : DsdvAgent :=
  if full then
    let a := { a with seqno := a.seqno + 2 }
    a.addEntry (a.selfEntry now)
  else a

/-- `makeUpdate` with the data of the packet, if there is one. -/
def makeUpdateData (a : DsdvAgent) (now : ℚ) (periodic : Bool) : Option (DsdvAgent × Option (List ℕ)) :=
  let periodic := periodic || a.muchChanged now
  let changeCount := if periodic then a.table.length - a.table.countP (fun e => now < e.advertiseOkAt) else a.table.countP (advertised now false)
  let a := a.renewed now periodic
  if changeCount = 0 then some (a, none)
  else
    let walked := advertLoop now periodic a.table changeCount
    asserting (walked.2.2 = 0) (some ({ a with table := walked.1 }, some (byte changeCount :: walked.2.1)))

/-- How `processUpdate` reads one destination; `none` if the data end before. -/
def readAdvert : List ℕ → Option (Advert × List ℕ)
  | d3 :: d2 :: d1 :: d0 :: metric :: s3 :: s2 :: s1 :: s0 :: w =>
    some (⟨((d3 <<< 8 ||| d2) <<< 8 ||| d1) <<< 8 ||| d0, metric, ((s3 <<< 8 ||| s2) <<< 8 ||| s1) <<< 8 ||| s0⟩, w)
  | _ => none

def readAdverts : ℕ → List ℕ → Option (List Advert)
  | 0, _ => some []
  | i + 1, w => do
    let first ← readAdvert w
    let rest ← readAdverts i first.2
    return first.1 :: rest

/-- How `processUpdate` reads the data: first the number of destinations, then as many. -/
def readUpdate : List ℕ → Option (List Advert)
  | [] => none
  | i :: w => readAdverts i w

/-- What a receiver reads, nothing if no packet is sent. -/
def readData (data : Option (List ℕ)) : Option (List Advert) := data.elim (some []) readUpdate

/-- The request is for a full update, or much of the table has changed. -/
def fullUpdate (a : DsdvAgent) (now : ℚ) (periodic : Bool) : Bool := periodic || a.muchChanged now

/-- What is to be advertised: all routes that may be for a full update, with a new number of the agent itself, and else what has changed. -/
def toAdvertise (a : DsdvAgent) (now : ℚ) (periodic : Bool) : List Advert :=
  ((a.renewed now (a.fullUpdate now periodic)).table.filter (advertised now (a.fullUpdate now periodic))).map advert

/-- The update is read as it was to be advertised, and no flag is cleared in an entry that is not read. -/
def RoundTrips (a : DsdvAgent) (now : ℚ) (periodic : Bool) : Prop :=
  ∃ b data, a.makeUpdateData now periodic = some (b, data) ∧ readData data = some (a.toAdvertise now periodic) ∧
    ∀ d e e', a.getEntry d = some e → b.getEntry d = some e' →
      (e.advertSeqnum = true ∧ e'.advertSeqnum = false ∨ e.advertMetric = true ∧ e'.advertMetric = false) →
        ∃ ad ∈ a.toAdvertise now periodic, ad.dst = d

/-- The number of routes fits into a byte, and for a full update the agent has an entry for itself that may be advertised. -/
structure UpdateFits (a : DsdvAgent) (now : ℚ) (periodic : Bool) : Prop where
  few : a.table.countP (advertised now (a.fullUpdate now periodic)) < 2 ^ 8
  self : a.fullUpdate now periodic = true → ∃ e, a.getEntry a.myaddr = some e ∧ e.advertiseOkAt ≤ now

variable {a : DsdvAgent} {now : ℚ} {periodic : Bool} {e ent : RtableEnt} {table : List RtableEnt} {count : ℤ} {n d : ℕ} {w : List ℕ}

theorem advertLoop_eq : advertLoop now periodic table count =
    (table.map fun e => if e.advertised now periodic then e.afterAdvert periodic else e,
      (table.filter (advertised now periodic)).flatMap advertBytes, count - table.countP (advertised now periodic)) := by
  induction table generalizing count with
  | nil => simp [advertLoop]
  | cons e rest ih =>
    rw [advertLoop, ih, ih, List.map_cons]
    cases included : e.advertised now periodic with
    | true =>
      rw [List.filter_cons_of_pos included, List.countP_cons_of_pos included, List.flatMap_cons]
      refine Prod.ext rfl (Prod.ext rfl ?_)
      show count - 1 - _ = count - ((_ + 1 : ℕ) : ℤ)
      omega
    | false =>
      rw [List.filter_cons_of_neg (by rw [included]; decide), List.countP_cons_of_neg (by rw [included]; decide)]
      rfl

theorem word_read (small : n < 2 ^ 32) :
    ((byte (n >>> 24) <<< 8 ||| byte (n >>> 16)) <<< 8 ||| byte (n >>> 8)) <<< 8 ||| byte n = n := by
  have bytewise : ∀ x y : ℕ, x <<< 8 ||| byte y = x * 2 ^ 8 + y % 2 ^ 8 := fun x y => by
    rw [byte, ← Nat.shiftLeft_add_eq_or_of_lt (Nat.mod_lt y (by decide)), Nat.shiftLeft_eq]
  rw [bytewise, bytewise, bytewise, byte]
  simp only [Nat.shiftRight_eq_div_pow]
  omega

theorem readAdvert_bytes (sized : e.Sized) (w : List ℕ) : readAdvert (e.advertBytes ++ w) = some (e.advert, w) := by
  have metric : byte e.metric = e.metric := Nat.mod_eq_of_lt (sized.metric.trans_lt (by decide))
  show some (_, w) = some (_, w)
  rw [word_read sized.dst, word_read sized.seqnum, metric]
  rfl

/-- As many destinations are read as asked for. -/
theorem readAdverts_bytes (sized : ∀ e ∈ table, e.Sized) (enough : n ≤ table.length) :
    readAdverts n (table.flatMap advertBytes) = some ((table.map advert).take n) := by
  induction table generalizing n with
  | nil =>
    cases Nat.le_zero.mp enough
    rfl
  | cons e rest ih =>
    cases n with
    | zero => rfl
    | succ n =>
      obtain ⟨first, others⟩ := List.forall_mem_cons.mp sized
      rw [List.flatMap_cons, readAdverts, readAdvert_bytes first, Option.bind_eq_bind, Option.bind_some,
        ih others (Nat.le_of_succ_le_succ enough)]
      rfl

theorem readAdverts_length {ads : List Advert} (read : readAdverts n w = some ads) : ads.length = n := by
  induction n generalizing w ads with
  | zero =>
    cases Option.some.inj read
    rfl
  | succ n ih =>
    obtain ⟨first, _, later⟩ := Option.bind_eq_some_iff.mp read
    obtain ⟨rest, found, made⟩ := Option.bind_eq_some_iff.mp later
    cases Option.some.inj made
    exact congrArg (· + 1) (ih found)

/-- How an entry that is put into the table changes a count. -/
theorem countP_insertEntry (ent : RtableEnt) (sorted : table.Pairwise fun e e' => e.dst < e'.dst) (p : RtableEnt → Bool) :
    (insertEntry ent table).countP p + ((table.find? fun e => e.dst = ent.dst).toList).countP p = table.countP p + [ent].countP p := by
  induction table with
  | nil => simp [insertEntry]
  | cons it rest ih =>
    obtain ⟨above, later⟩ := List.pairwise_cons.mp sorted
    rw [insertEntry]
    by_cases less : ent.dst < it.dst
    · have absent : (it :: rest).find? (fun e => e.dst = ent.dst) = none := by
        refine List.find?_eq_none.mpr fun e member same => ?_
        have equal : e.dst = ent.dst := of_decide_eq_true same
        rcases List.mem_cons.mp member with rfl | inside
        · omega
        · have higher := above e inside
          omega
      rw [if_pos less, absent, Option.toList_none, List.countP_nil, List.countP_cons, List.countP_singleton]
      omega
    · rw [if_neg less]
      by_cases equal : ent.dst = it.dst
      · rw [if_pos equal, List.find?_cons, decide_eq_true equal.symm]
        simp only [Option.toList_some, List.countP_cons, List.countP_nil]
        omega
      · rw [if_neg equal, List.find?_cons, decide_eq_false (Ne.symm equal), List.countP_cons, List.countP_cons]
        have rest' := ih later
        dsimp only
        omega

theorem renewed_sized (sized : ∀ e ∈ a.table, e.Sized) (small : a.myaddr < 2 ^ 32) (full : Bool) :
    ∀ e ∈ (a.renewed now full).table, e.Sized := by
  intro e member
  cases full with
  | false => exact sized e member
  | true =>
    rcases mem_insertEntry member with rfl | old
    · exact ⟨small, Nat.zero_le _, Nat.mod_lt _ (by decide)⟩
    · exact sized e old

/-- What `change_count` starts from. -/
theorem changeCount_eq (a : DsdvAgent) (now : ℚ) (full : Bool) :
    (if full then a.table.length - a.table.countP (fun e => now < e.advertiseOkAt) else a.table.countP (advertised now false)) =
      a.table.countP (advertised now full) := by
  cases full with
  | false => rfl
  | true =>
    have counted := List.length_eq_countP_add_countP (advertised now true) (l := a.table)
    have others : a.table.countP (fun e => ¬advertised now true e) = a.table.countP fun e => now < e.advertiseOkAt :=
      List.countP_congr fun e _ => by simp [advertised]
    rw [others] at counted
    rw [if_pos rfl]
    omega

theorem makeUpdateData_eq (a : DsdvAgent) (now : ℚ) (periodic : Bool) : a.makeUpdateData now periodic =
    if a.table.countP (advertised now (a.fullUpdate now periodic)) = 0 then some (a.renewed now (a.fullUpdate now periodic), none)
    else
      asserting (a.table.countP (advertised now (a.fullUpdate now periodic)) = (a.toAdvertise now periodic).length)
        (some ({ a.renewed now (a.fullUpdate now periodic) with
          table := (a.renewed now (a.fullUpdate now periodic)).table.map fun e =>
            if e.advertised now (a.fullUpdate now periodic) then e.afterAdvert (a.fullUpdate now periodic) else e },
          some (byte (a.table.countP (advertised now (a.fullUpdate now periodic))) ::
            ((a.renewed now (a.fullUpdate now periodic)).table.filter (advertised now (a.fullUpdate now periodic))).flatMap advertBytes))) := by
  have full : (periodic || a.muchChanged now) = a.fullUpdate now periodic := rfl
  unfold makeUpdateData toAdvertise
  rw [List.length_map, ← List.countP_eq_length_filter]
  simp only [full, changeCount_eq, advertLoop_eq]
  refine if_congr Iff.rfl rfl ?_
  unfold asserting
  exact if_congr (by rw [sub_eq_zero, Nat.cast_inj]) rfl rfl

/-- The number of routes to be advertised, before and after the agent has renewed its own. -/
theorem toAdvertise_length_iff (sorted : a.table.Pairwise fun e e' => e.dst < e'.dst) (clock : 0 ≤ now) :
    a.table.countP (advertised now (a.fullUpdate now periodic)) = (a.toAdvertise now periodic).length ↔
      (a.fullUpdate now periodic = true → ∃ e, a.getEntry a.myaddr = some e ∧ e.advertiseOkAt ≤ now) := by
  unfold toAdvertise
  rw [List.length_map, ← List.countP_eq_length_filter]
  cases full : a.fullUpdate now periodic with
  | false => exact iff_of_true rfl fun none => absurd none (by decide)
  | true =>
    have counted : (a.renewed now true).table.countP (advertised now true) + (a.getEntry a.myaddr).toList.countP (advertised now true) =
        a.table.countP (advertised now true) + 1 := by
      refine (countP_insertEntry _ sorted (advertised now true)).trans (congrArg _ ?_)
      exact List.countP_singleton.trans (if_pos (decide_eq_true clock))
    cases own : a.getEntry a.myaddr with
    | none =>
      rw [own, Option.toList_none, List.countP_nil] at counted
      refine iff_of_false (by omega) fun known => ?_
      obtain ⟨e, found, _⟩ := known rfl
      cases found
    | some e =>
      rw [own, Option.toList_some, List.countP_singleton] at counted
      by_cases ready : e.advertiseOkAt ≤ now
      · have included : e.advertised now true = true := decide_eq_true ready
        rw [if_pos included] at counted
        exact iff_of_true (by omega) fun _ => ⟨e, rfl, ready⟩
      · rw [if_neg (by simpa [advertised] using ready)] at counted
        refine iff_of_false (by omega) fun known => ?_
        obtain ⟨e', found, ready'⟩ := known rfl
        cases found
        exact ready ready'

/-- What an update has cleared was read. -/
theorem cleared_advertised {b : DsdvAgent} (clock : 0 ≤ now)
    (table : b.table = (a.renewed now (a.fullUpdate now periodic)).table.map fun e =>
      if e.advertised now (a.fullUpdate now periodic) then e.afterAdvert (a.fullUpdate now periodic) else e) {e e' : RtableEnt}
    (before : a.getEntry d = some e) (after : b.getEntry d = some e')
    (cleared : e.advertSeqnum = true ∧ e'.advertSeqnum = false ∨ e.advertMetric = true ∧ e'.advertMetric = false) :
    ∃ ad ∈ a.toAdvertise now periodic, ad.dst = d := by
  have stepped : b.getEntry d = ((a.renewed now (a.fullUpdate now periodic)).getEntry d).map fun e =>
      if e.advertised now (a.fullUpdate now periodic) then e.afterAdvert (a.fullUpdate now periodic) else e := by
    have same := getEntry_map (a := a.renewed now (a.fullUpdate now periodic))
      (fun e => if e.advertised now (a.fullUpdate now periodic) then e.afterAdvert (a.fullUpdate now periodic) else e)
      (fun e => by split <;> rfl) d
    rw [← same, getEntry, table]
    rfl
  rw [after] at stepped
  obtain ⟨x, found, made⟩ := Option.map_eq_some_iff.mp stepped.symm
  by_cases included : x.advertised now (a.fullUpdate now periodic) = true
  · refine ⟨x.advert, List.mem_map_of_mem (List.mem_filter.mpr ⟨getEntry_mem found, included⟩), getEntry_dst found⟩
  · rw [if_neg included] at made
    subst made
    exfalso
    cases full : a.fullUpdate now periodic with
    | false =>
      rw [full] at found
      cases Option.some.inj (before.symm.trans found)
      rcases cleared with ⟨yes, no⟩ | ⟨yes, no⟩
      · exact Bool.noConfusion (yes.symm.trans no)
      · exact Bool.noConfusion (yes.symm.trans no)
    | true =>
      rw [full] at found included
      have entry : (a.renewed now true).getEntry d = _ := getEntry_addEntry _ _ d
      rw [found] at entry
      split at entry
      · cases Option.some.inj entry
        exact included (decide_eq_true clock)
      · cases Option.some.inj (before.symm.trans entry.symm)
        rcases cleared with ⟨yes, no⟩ | ⟨yes, no⟩
        · exact Bool.noConfusion (yes.symm.trans no)
        · exact Bool.noConfusion (yes.symm.trans no)

/-- An update is read as it was to be advertised exactly if it fits into the packet. -/
theorem roundTrips_iff (a : DsdvAgent) (now : ℚ) (periodic : Bool) (sorted : a.table.Pairwise fun e e' => e.dst < e'.dst)
    (sized : ∀ e ∈ a.table, e.Sized) (small : a.myaddr < 2 ^ 32) (clock : 0 ≤ now) : a.RoundTrips now periodic ↔ a.UpdateFits now periodic := by
  have balanced : a.table.countP (advertised now (a.fullUpdate now periodic)) = (a.toAdvertise now periodic).length ↔ _ :=
    toAdvertise_length_iff sorted clock
  unfold RoundTrips
  rw [makeUpdateData_eq]
  have bounds : ∀ e ∈ (a.renewed now (a.fullUpdate now periodic)).table.filter (advertised now (a.fullUpdate now periodic)), e.Sized :=
    fun e member => renewed_sized sized small _ e (List.mem_of_mem_filter member)
  by_cases empty : a.table.countP (advertised now (a.fullUpdate now periodic)) = 0
  · rw [if_pos empty]
    constructor
    · rintro ⟨b, data, made, read, _⟩
      cases made
      have none' : [] = a.toAdvertise now periodic := Option.some.inj read
      exact ⟨by rw [empty]; decide, balanced.mp (by rw [empty, ← none']; rfl)⟩
    · intro fits
      have none' : a.toAdvertise now periodic = [] := List.eq_nil_of_length_eq_zero ((balanced.mpr fits.self).symm.trans empty)
      have untouched : (a.renewed now (a.fullUpdate now periodic)).table = (a.renewed now (a.fullUpdate now periodic)).table.map fun e =>
          if e.advertised now (a.fullUpdate now periodic) then e.afterAdvert (a.fullUpdate now periodic) else e := by
        have skipped := List.filter_eq_nil_iff.mp (List.map_eq_nil_iff.mp none')
        exact (List.map_id' _).symm.trans (List.map_congr_left fun e member => (if_neg (skipped e member)).symm)
      exact ⟨_, none, rfl, congrArg some none'.symm, fun d e e' before after => cleared_advertised clock untouched before after⟩
  · rw [if_neg empty]
    constructor
    · rintro ⟨b, data, made, read, _⟩
      obtain ⟨same, made⟩ := asserting_eq_some made
      cases made
      have length := readAdverts_length read
      rw [← same] at length
      exact ⟨by rw [length]; exact Nat.mod_lt _ (by decide), balanced.mp same⟩
    · intro fits
      have same := balanced.mpr fits.self
      refine ⟨_, _, if_pos same, ?_, fun d e e' before after => cleared_advertised clock rfl before after⟩
      show readAdverts (byte _) _ = _
      rw [byte, Nat.mod_eq_of_lt fits.few, same, toAdvertise, List.length_map, readAdverts_bytes bounds le_rfl, ← List.length_map,
        List.take_length]

theorem makeUpdate_eq (a : DsdvAgent) (now : ℚ) (periodic : Bool) : a.makeUpdate now periodic =
    if a.table.countP (advertised now (a.fullUpdate now periodic)) = 0 then some (a.renewed now (a.fullUpdate now periodic), none)
    else
      asserting (a.table.countP (advertised now (a.fullUpdate now periodic)) =
          ((a.renewed now (a.fullUpdate now periodic)).table.filter (advertised now (a.fullUpdate now periodic))).length)
        (some ({ a.renewed now (a.fullUpdate now periodic) with
          table := (a.renewed now (a.fullUpdate now periodic)).table.map fun e =>
            if e.advertised now (a.fullUpdate now periodic) then e.afterAdvert (a.fullUpdate now periodic) else e },
          some ⟨(a.renewed now (a.fullUpdate now periodic)).myaddr, 32, (a.toAdvertise now periodic).take
            (byte (a.table.countP (advertised now (a.fullUpdate now periodic))))⟩)) := rfl

/-- What is read of the data is what `makeUpdate` has for the packet. -/
theorem makeUpdate_read (a : DsdvAgent) (now : ℚ) (periodic : Bool) (sized : ∀ e ∈ a.table, e.Sized) (small : a.myaddr < 2 ^ 32) :
    (a.makeUpdateData now periodic).map (fun done => (done.1, readData done.2)) =
      (a.makeUpdate now periodic).map fun done => (done.1, some ((done.2.map DsdvUpdate.adverts).getD [])) := by
  have bounds : ∀ e ∈ (a.renewed now (a.fullUpdate now periodic)).table.filter (advertised now (a.fullUpdate now periodic)), e.Sized :=
    fun e member => renewed_sized sized small _ e (List.mem_of_mem_filter member)
  rw [makeUpdateData_eq, makeUpdate_eq, toAdvertise, List.length_map]
  split
  · rfl
  · unfold asserting
    split
    · rename_i same
      exact congrArg (fun read => some (_, read)) (readAdverts_bytes bounds ((Nat.mod_le _ _).trans same.le))
    · rfl

theorem makeUpdate_read_sample : ((startUp 9).makeUpdateData 5 true).map (fun done => (done.1, readData done.2)) =
    ((startUp 9).makeUpdate 5 true).map fun done => (done.1, some ((done.2.map DsdvUpdate.adverts).getD [])) :=
  makeUpdate_read _ 5 true (List.forall_mem_singleton.mpr ⟨by decide, by decide, by decide⟩) (by decide)

/-- An agent for 9 that has heard of 4, and has lost the route to 70000. -/
def updateSample : DsdvAgent :=
  ((startUp 9).addEntry { RtableEnt.zero with dst := 4, hop := 4, metric := 1, seqnum := 6, advertSeqnum := true, advertiseOkAt := 2 }).addEntry
    { RtableEnt.zero with dst := 70000, hop := 4, metric := big, seqnum := 7, advertMetric := true }

theorem roundTrips_iff_sample : updateSample.RoundTrips 5 false ↔ updateSample.UpdateFits 5 false :=
  roundTrips_iff updateSample 5 false (by decide) (fun e member => by
    have all : updateSample.table.all (fun e => e.dst < 2 ^ 32 ∧ e.metric ≤ big ∧ e.seqnum < 2 ^ 32) = true := by decide
    have met := of_decide_eq_true (List.all_eq_true.mp all e member)
    exact ⟨met.1, met.2.1, met.2.2⟩) (by decide) (by decide)

/-- An agent for 0 with routes to 255 others. -/
def crowdedAgent : DsdvAgent := ⟨0, 2, (List.range 256).map fun d => { RtableEnt.zero with dst := d, hop := d, metric := min d 1 }, 0⟩

/-- Of 256 routes a receiver reads none. -/
theorem crowded_update_lost : crowdedAgent.table.Pairwise (fun e e' => e.dst < e'.dst) ∧ (∀ e ∈ crowdedAgent.table, e.Sized) ∧
    ¬crowdedAgent.RoundTrips 1 true := by
  have sorted : crowdedAgent.table.Pairwise fun e e' => e.dst < e'.dst := List.pairwise_map.mpr List.pairwise_lt_range
  have sized : ∀ e ∈ crowdedAgent.table, e.Sized := by
    intro e member
    obtain ⟨d, inside, rfl⟩ := List.mem_map.mp member
    have less := List.mem_range.mp inside
    refine ⟨?_, ?_, ?_⟩
    · dsimp only
      omega
    · dsimp only [big]
      omega
    · exact Nat.two_pow_pos 32
  refine ⟨sorted, sized, ?_⟩
  rintro ⟨b, data, made, read, _⟩
  rw [makeUpdateData_eq] at made
  have count : crowdedAgent.table.countP (advertised 1 (crowdedAgent.fullUpdate 1 true)) = 256 := by decide +kernel
  rw [count, if_neg (by decide)] at made
  obtain ⟨same, made⟩ := asserting_eq_some made
  cases made
  have none' : [] = crowdedAgent.toAdvertise 1 true := Option.some.inj read
  rw [← none'] at same
  cases same

end DsdvAgent

end Ns2
