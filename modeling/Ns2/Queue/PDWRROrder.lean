import Ns2.Library.LevelOrder
import Ns2.Queue.PDWRRRun

namespace Ns2.PDWRR

open LevelOrder (Follows Split)

/-- The state `mid` in which the flow is chosen has the levels of `s`: none is recomputed. -/
structure Steady (s mid : PDWRR) : Prop where
  levels : mid.levels = s.levels
  cerprique : mid.cerprique = s.cerprique
  same : ∀ i, (mid.pdwrr i).S = (s.pdwrr i).S

def level (s : PDWRR) (i : ℕ) : ℚ := (s.pdwrr i).S

section Turns

variable {s t mid : PDWRR} {ring : List ℕ} {this next : ℕ} {pkt : Packet} {rest : PacketQueue} {nextS : ℚ}

/-- The flow that is chosen is the first of its level from `curr` on. -/
theorem Sound.chosen (sound : Sound s ring) (chosen : s.moveMaxS = some (mid, this)) :
    this ∈ ring ∧ s.levels[s.cerprique]? = some (s.level this) ∧
      ∀ head, s.curr = some head → s.level this = s.level head → this = head := by
  obtain ⟨head, atHead, chosen⟩ := Option.bind_eq_some_iff.mp chosen
  obtain ⟨value, entry, chosen⟩ := Option.bind_eq_some_iff.mp chosen
  obtain ⟨tmp, found, chosen⟩ := Option.bind_eq_some_iff.mp chosen
  have same : tmp = this := by
    simp only at chosen
    split_ifs at chosen
    · obtain ⟨u, _, result⟩ := Option.bind_eq_some_iff.mp chosen
      cases Option.some.inj result
      rfl
    · cases Option.some.inj chosen
      rfl
  subst same
  obtain ⟨flows, rfl⟩ := sound.active.ring_some atHead
  rw [sound.active.flwcnt_eq, Int.toNat_natCast, sound.active.linked.circle.seek] at found
  have own : (s.pdwrr tmp).S = value := by simpa using List.find?_some found
  refine ⟨List.mem_of_find?_eq_some found, entry.trans (congrArg some own.symm), fun head' atHead' tied => ?_⟩
  cases Option.some.inj (atHead.symm.trans atHead')
  have first : (s.pdwrr head).S = value := tied.symm.trans own
  rw [List.find?_cons_of_pos (by simpa using first)] at found
  exact (Option.some.inj found).symm

/-- What is left of the levels when that of `this` is taken out, about the place that the index has. -/
theorem Sound.split (sound : Sound s ring) (member : this ∈ ring) (entry : s.levels[s.cerprique]? = some (s.level this)) :
    ∃ l r, s.levels = l ++ s.level this :: r ∧ l.length = s.cerprique ∧ Split s.level this (ring.erase this) l r := by
  obtain ⟨inside, value⟩ := List.getElem?_eq_some_iff.mp entry
  have parts : s.levels = s.levels.take s.cerprique ++ s.level this :: s.levels.drop (s.cerprique + 1) := by
    rw [← value, List.cons_getElem_drop_succ, List.take_append_drop]
  have ranked := sound.ranked (List.ne_nil_of_mem member)
  have perm := ranked.perm
  have sorted := ranked.sorted
  rw [parts] at perm sorted
  refine ⟨_, _, parts, List.length_take_of_le inside.le, ?_, sorted, fun again => ?_⟩
  · have whole := perm.trans ((List.perm_cons_erase member).map s.level)
    exact (List.perm_middle.symm.trans whole).cons_inv
  · exact ((sound.active.nodup.mem_erase_iff).mp again).1 rfl

theorem relocate_foldl_none (nextS : ℚ) (levels : List ℚ) (start found : ℕ) (none : nextS ∉ levels) :
    (levels.zipIdx start).foldl (fun found entry => if entry.1 = nextS then entry.2 else found) found = found := by
  induction levels generalizing start with
  | nil => rfl
  | cons value levels ih =>
    have other : value ≠ nextS := fun same => none (same ▸ List.mem_cons_self)
    rw [List.zipIdx_cons, List.foldl_cons, if_neg other]
    exact ih (start + 1) fun member => none (List.mem_cons_of_mem value member)

theorem relocate_foldl_get (nextS : ℚ) (levels : List ℚ) (start found : ℕ) (member : nextS ∈ levels) : ∃ i,
    (levels.zipIdx start).foldl (fun found entry => if entry.1 = nextS then entry.2 else found) found = start + i ∧
      levels[i]? = some nextS := by
  induction levels generalizing start found with
  | nil => exact absurd member List.not_mem_nil
  | cons value levels ih =>
    rw [List.zipIdx_cons, List.foldl_cons]
    by_cases later : nextS ∈ levels
    · obtain ⟨i, last, entry⟩ := ih (start + 1) (if value = nextS then start else found) later
      exact ⟨i + 1, last.trans (by omega), entry⟩
    · have own : value = nextS := ((List.mem_cons.mp member).resolve_right later).symm
      rw [if_pos own, relocate_foldl_none nextS levels (start + 1) start later]
      exact ⟨0, rfl, congrArg some own⟩

theorem relocate_get (cerprique : ℕ) {levels : List ℚ} (member : nextS ∈ levels) :
    levels[relocate levels nextS cerprique]? = some nextS := by
  obtain ⟨i, last, entry⟩ := relocate_foldl_get nextS levels 0 cerprique member
  rw [relocate, if_pos member, last, Nat.zero_add, entry]

/-- A table made anew for some flows: the index finds its level again, or it is at the highest when that is gone. -/
theorem rearr_level (rearranged : s.rearr = some t) (entry : s.levels[s.cerprique]? = some nextS) :
    t.curr = s.curr ∧ t.pdwrr = s.pdwrr ∧
      (t.curr ≠ none → (nextS ∈ t.levels → t.levels[t.cerprique]? = some nextS) ∧ (nextS ∉ t.levels → t.cerprique = 0)) := by
  cases atHead : s.curr with
  | none =>
    simp only [PDWRR.rearr, entry, atHead, Option.bind_eq_bind, Option.bind_some] at rearranged
    cases Option.some.inj rearranged
    exact ⟨atHead, rfl, fun some_ => absurd atHead some_⟩
  | some head =>
    simp only [PDWRR.rearr, entry, atHead, Option.bind_eq_bind, Option.bind_some] at rearranged
    cases Option.some.inj rearranged
    exact ⟨rfl, rfl, fun _ => ⟨fun member => relocate_get s.cerprique member, fun gone => if_neg gone⟩⟩

/-- The state in which the chosen flow is served. -/
def served (quantum : ℤ) (mid : PDWRR) (this : ℕ) : PDWRR :=
  { mid.setFlow this (PacketPDWRR.grant quantum (mid.pdwrr this)) with curr := some this }

theorem visit_eq (chosen : s.moveMaxS = some (mid, this)) : s.visit = ((served mid.quantum mid this).queues this).head?.bind fun pkt =>
    if ((served mid.quantum mid this).pdwrr this).deficitCounter ≥ (pkt.size : ℤ) then
      ((served mid.quantum mid this).send this pkt).bind fun t => some (t, some pkt)
    else some ((served mid.quantum mid this).pass this, none) := by
  unfold PDWRR.visit
  simp only [chosen, Option.bind_eq_bind, Option.bind_some]
  rfl

/-- A turn that ends without a packet. -/
theorem visit_none (chosen : s.moveMaxS = some (mid, this)) (visited : s.visit = some (t, none)) :
    t = (served mid.quantum mid this).pass this := by
  rw [visit_eq chosen] at visited
  obtain ⟨pkt, _, visited⟩ := Option.bind_eq_some_iff.mp visited
  split_ifs at visited
  · obtain ⟨u, _, result⟩ := Option.bind_eq_some_iff.mp visited
    cases Option.some.inj result
  · exact (Prod.mk.inj (Option.some.inj visited)).1.symm

theorem visit_some (chosen : s.moveMaxS = some (mid, this)) (visited : s.visit = some (t, some pkt)) :
    (served mid.quantum mid this).send this pkt = some t := by
  rw [visit_eq chosen] at visited
  obtain ⟨pkt', _, visited⟩ := Option.bind_eq_some_iff.mp visited
  split_ifs at visited
  · obtain ⟨u, sent, result⟩ := Option.bind_eq_some_iff.mp visited
    cases Option.some.inj result
    exact sent
  · cases Option.some.inj visited

theorem level_setFlow {q : PacketPDWRR} {k : ℕ} (level : q.S = s.level k) : (s.setFlow k q).level = s.level :=
  funext (update_kept PacketPDWRR.S _ level)

theorem served_level (mid : PDWRR) (quantum : ℤ) (this : ℕ) : (served quantum mid this).level = mid.level := by
  have granted : (PacketPDWRR.grant quantum (mid.pdwrr this)).S = mid.level this := by
    unfold PacketPDWRR.grant
    split_ifs <;> rfl
  exact level_setFlow granted

/-- The last packet of a flow is sent: the index moves by the count without the flow, in the table with it. -/
theorem send_last (sent : s.send this pkt = some t) (empty : (t.pdwrr this).pkts = 0) : ∃ u : PDWRR, u.rearr = some t ∧
    u.levels = s.levels ∧ u.cerprique = ({ s with flwcnt := s.flwcnt - 1 } : PDWRR).skip ∧ u.level = s.level := by
  let charged : PDWRR := s.setFlow this { s.pdwrr this with deficitCounter := (s.pdwrr this).deficitCounter - pkt.size }
  let taken : PDWRR := { charged.take this pkt with predequeSite := (s.pdwrr this).site }
  have paid : charged.level = s.level := level_setFlow rfl
  have level : taken.level = s.level := Eq.trans (level_setFlow (s := charged) rfl) paid
  have cases_ : (if (taken.pdwrr this).pkts = 0 then taken.retire this else some taken) = some t := sent
  by_cases last : (taken.pdwrr this).pkts = 0
  · rw [if_pos last] at cases_
    have ended : (taken.setFlow this { taken.pdwrr this with turn := false, deficitCounter := 0 }).level = s.level :=
      Eq.trans (level_setFlow (s := taken) rfl) level
    exact ⟨_, cases_, rfl, rfl, ended⟩
  · rw [if_neg last] at cases_
    rw [← Option.some.inj cases_] at empty
    exact absurd empty last

/-- No other active flow has the level of `this`. -/
def Distinct (s : PDWRR) (this : ℕ) : Prop := ∀ i, s.queues i ≠ [] → i ≠ this → s.level i ≠ s.level this

theorem Sound.mem_erase (sound : Sound s ring) (this i : ℕ) : i ∈ ring.erase this ↔ i ≠ this ∧ s.queues i ≠ [] := by
  rw [sound.active.nodup.mem_erase_iff, sound.active.member]

theorem Sound.distinct_iff (sound : Sound s ring) : s.Distinct this ↔ ∀ i ∈ ring.erase this, s.level i ≠ s.level this := by
  constructor
  · intro distinct i member
    obtain ⟨other, active⟩ := (sound.mem_erase this i).mp member
    exact distinct i active other
  · intro distinct i active other
    exact distinct i ((sound.mem_erase this i).mpr ⟨other, active⟩)

/-- The state after a turn that ends without a packet. -/
theorem Sound.exhausted (sound : Sound s ring) (chosen : s.moveMaxS = some (mid, this)) (steady : Steady s mid)
    (visited : s.visit = some (t, none)) : (∃ ring', Sound t ring') ∧ t.curr = some this ∧ t.levels = s.levels ∧
      t.cerprique = s.skip ∧ t.level = s.level ∧ t.queues = s.queues ∧ t.clock = s.clock := by
  have some_ := List.ne_nil_of_mem (sound.chosen chosen).1
  obtain ⟨mid', this', chosen', _, _, same⟩ := sound.moveMaxS some_
  cases Option.some.inj (chosen.symm.trans chosen')
  obtain ⟨t', out, ring', visited', sound', kept, served, _⟩ := sound.visit some_
  cases Option.some.inj (visited.symm.trans visited')
  have ended := visit_none chosen visited
  refine ⟨⟨ring', sound'⟩, ?_, ?_, ?_, ?_, served, kept.clock⟩
  · rw [ended]
    rfl
  · rw [ended]
    exact steady.levels
  · rw [ended]
    change (if ((mid.cerprique + 1 : ℕ) : ℤ) ≥ mid.flwcnt then 0 else mid.cerprique + 1) = s.skip
    rw [steady.cerprique, same.flwcnt]
    rfl
  · rw [ended]
    have own : ((PDWRR.served mid.quantum mid this).pass this).level = (PDWRR.served mid.quantum mid this).level :=
      level_setFlow rfl
    rw [own, served_level]
    exact funext steady.same

/-- The state after a turn that sends the last packet of the flow, while there are others. -/
theorem Sound.emptied (sound : Sound s ring) (chosen : s.moveMaxS = some (mid, this)) (steady : Steady s mid)
    (visited : s.visit = some (t, some pkt)) (empty : t.queues this = []) (others : 0 < t.flwcnt) :
    (∃ ring', Sound t ring') ∧ t.level = s.level ∧ t.clock = s.clock ∧ t.queues = Function.update s.queues this [] ∧
      ∃ nextS, s.levels[({ s with flwcnt := s.flwcnt - 1 } : PDWRR).skip]? = some nextS ∧
        (nextS ∈ t.levels → t.levels[t.cerprique]? = some nextS) ∧ (nextS ∉ t.levels → t.cerprique = 0) := by
  have some_ := List.ne_nil_of_mem (sound.chosen chosen).1
  obtain ⟨mid', this', chosen', _, _, same⟩ := sound.moveMaxS some_
  cases Option.some.inj (chosen.symm.trans chosen')
  obtain ⟨t', out, ring', visited', sound', kept, served, _⟩ := sound.visit some_
  cases Option.some.inj (visited.symm.trans visited')
  have counted : (t.pdwrr this).pkts = 0 := by rw [sound'.table.counts.counted, empty]; rfl
  obtain ⟨u, rearranged, levels, cerprique, level⟩ := send_last (visit_some chosen visited) counted
  have index : u.cerprique = ({ s with flwcnt := s.flwcnt - 1 } : PDWRR).skip := by
    rw [cerprique]
    change (if ((mid.cerprique + 1 : ℕ) : ℤ) ≥ mid.flwcnt - 1 then 0 else mid.cerprique + 1) = _
    rw [steady.cerprique, same.flwcnt]
    rfl
  have table : u.levels = s.levels := levels.trans steady.levels
  have inside : u.cerprique < u.levels.length := by
    rw [index, table]
    exact sound.skip_lt some_ (sub_le_self s.flwcnt zero_le_one)
  have entry := List.getElem?_eq_getElem inside
  obtain ⟨_, pdwrr, found⟩ := rearr_level rearranged entry
  refine ⟨⟨ring', sound'⟩, ?_, kept.clock, ?_, u.levels[u.cerprique], ?_, found ?_⟩
  · have own : t.level = u.level := by
      unfold PDWRR.level
      rw [pdwrr]
    rw [own, level, served_level]
    exact funext steady.same
  · obtain ⟨k, rest, queue, queues⟩ := served
    have own : k = this := by
      by_contra other
      have active := (sound.active.member this).mp (sound.chosen chosen).1
      rw [queues, Function.update_of_ne (Ne.symm other)] at empty
      exact active empty
    subst own
    rw [queues, Function.update_self] at empty
    rw [queues, empty]
  · rw [← index, ← table, entry]
  · intro none
    have first := sound'.active.linked.head
    rw [none] at first
    rw [sound'.active.flwcnt_eq, List.head?_eq_none_iff.mp first.symm] at others
    exact lt_irrefl _ others

/-- The flow that is visited next, whenever that is. -/
theorem Sound.visitsNext (sound : Sound t ring) (some_ : ring ≠ []) {later : ℚ} (ordered : t.clock ≤ later) :
    ∃ after next, PDWRR.moveMaxS { t with clock := later } = some (after, next) ∧ next ∈ ring ∧
      t.levels[t.cerprique]? = some (t.level next) ∧
      ∀ head, t.curr = some head → t.level next = t.level head → next = head := by
  have waited := sound.wait ordered
  obtain ⟨after, next, chosen, _⟩ := waited.moveMaxS some_
  obtain ⟨member, entry, first⟩ := waited.chosen chosen
  exact ⟨after, next, chosen, member, entry, first⟩

/-- The flow after one whose turn has ended without a packet. -/
theorem Sound.exhausted_follows (sound : Sound s ring) (chosen : s.moveMaxS = some (mid, this)) (steady : Steady s mid)
    (visited : s.visit = some (t, none)) {later : ℚ} (ordered : t.clock ≤ later) : ∃ after next,
      PDWRR.moveMaxS { t with clock := later } = some (after, next) ∧
        (Follows (fun i => t.queues i ≠ []) t.level this next ↔ s.Distinct this) := by
  obtain ⟨member, entry, _⟩ := sound.chosen chosen
  obtain ⟨⟨ring', sound'⟩, atHead, levels, cerprique, level, queues, _⟩ := sound.exhausted chosen steady visited
  have active : this ∈ ring' := by
    rw [sound'.active.member, queues, ← sound.active.member]
    exact member
  obtain ⟨after, next, chosen', inside, entry', first⟩ := sound'.visitsNext (List.ne_nil_of_mem active) ordered
  obtain ⟨l, r, parts, place, split⟩ := sound.split member entry
  have count : s.flwcnt = (l.length + (r.length + 1) : ℕ) := by
    have ranked := (sound.ranked (List.ne_nil_of_mem member)).perm.length_eq
    rw [parts, List.length_map, List.length_append, List.length_cons] at ranked
    rw [sound.active.flwcnt_eq, ranked]
  have same : (fun i => t.queues i ≠ []) = fun i => i = this ∨ i ∈ ring.erase this := by
    funext i
    rw [queues, eq_iff_iff, sound.mem_erase]
    by_cases own : i = this
    · subst own
      simpa using (sound.active.member i).mp member
    · simp [own]
  refine ⟨after, next, chosen', ?_⟩
  rw [same, level, sound.distinct_iff]
  refine split.follows_stay ?_ ?_ ?_
  · have live := (sound'.active.member next).mp inside
    rw [queues] at live
    by_cases own : next = this
    · exact Or.inl own
    · exact Or.inr ((sound.mem_erase this next).mpr ⟨own, live⟩)
  · rw [levels, level, cerprique, parts, PDWRR.skip, count, ← place] at entry'
    cases r with
    | nil =>
      rw [if_pos (by simp)] at entry'
      rw [List.nil_append, List.head?_eq_getElem?, entry']
    | cons low r =>
      rw [if_neg (by simp only [List.length_cons]; omega), List.getElem?_append_right (by omega),
        Nat.add_sub_cancel_left] at entry'
      exact entry'
  · intro tied
    exact first this atHead (by rw [level]; exact tied)

/-- Where the index goes from a place of the table when the flow of that place is gone from the count. -/
theorem skip_fewer {l r : List ℚ} (place : l.length = s.cerprique) (count : s.flwcnt = (l.length + (r.length + 1) : ℕ)) :
    ({ s with flwcnt := s.flwcnt - 1 } : PDWRR).skip = if r.length ≤ 1 then 0 else l.length + 1 := by
  have moved : ({ s with flwcnt := s.flwcnt - 1 } : PDWRR).skip =
      if ((s.cerprique + 1 : ℕ) : ℤ) ≥ s.flwcnt - 1 then 0 else s.cerprique + 1 := rfl
  rw [moved, count, ← place]
  split_ifs <;> omega

/-- The flow after one whose last packet is sent. -/
theorem Sound.emptied_follows (sound : Sound s ring) (chosen : s.moveMaxS = some (mid, this)) (steady : Steady s mid)
    (visited : s.visit = some (t, some pkt)) (empty : t.queues this = []) (others : 0 < t.flwcnt) {later : ℚ}
    (ordered : t.clock ≤ later) : ∃ after next, PDWRR.moveMaxS { t with clock := later } = some (after, next) ∧
      (Follows (fun i => t.queues i ≠ []) t.level this next ↔
        s.levels[({ s with flwcnt := s.flwcnt - 1 } : PDWRR).skip]? = some (s.level this) ∨
          s.Distinct this ∧ s.cerprique + 2 ≠ s.levels.length) := by
  obtain ⟨member, entry, _⟩ := sound.chosen chosen
  obtain ⟨⟨ring', sound'⟩, level, _, queues, nextS, index, found, gone⟩ := sound.emptied chosen steady visited empty others
  have some_ : ring' ≠ [] := by
    rintro rfl
    rw [sound'.active.flwcnt_eq] at others
    exact lt_irrefl _ others
  obtain ⟨after, next, chosen', inside, entry', _⟩ := sound'.visitsNext some_ ordered
  obtain ⟨l, r, parts, place, split⟩ := sound.split member entry
  have length : s.levels.length = l.length + (r.length + 1) := by rw [parts, List.length_append, List.length_cons]
  have count : s.flwcnt = (l.length + (r.length + 1) : ℕ) := by
    have ranked := (sound.ranked (List.ne_nil_of_mem member)).perm.length_eq
    rw [length, List.length_map] at ranked
    rw [sound.active.flwcnt_eq, ranked]
  have same : ∀ i, i ∈ ring' ↔ i ∈ ring.erase this := by
    intro i
    rw [sound'.active.member, sound.mem_erase, queues]
    by_cases own : i = this
    · subst own
      simp
    · simp [own]
  have left : t.levels.Perm (l ++ r) := by
    have flows : ring'.Perm (ring.erase this) :=
      (List.perm_ext_iff_of_nodup sound'.active.nodup (sound.active.nodup.erase this)).mpr same
    have ranked := (sound'.ranked some_).perm
    exact ranked.trans ((flows.map t.level).trans (level ▸ split.perm.symm))
  have predicate : (fun i => t.queues i ≠ []) = (· ∈ ring.erase this) := by
    funext i
    rw [eq_iff_iff, ← same, sound'.active.member]
  have inside' := (same next).mp inside
  -- a level that is left is the level of the next flow
  have taken : nextS ∈ l ++ r → s.level next = nextS := by
    intro kept
    rw [found (left.symm.subset kept), level] at entry'
    exact (Option.some.inj entry').symm
  have remains : s.level next ∈ l ++ r := split.perm.symm.subset (List.mem_map_of_mem inside')
  refine ⟨after, next, chosen', ?_⟩
  rw [predicate, level, sound.distinct_iff, index, Option.some.injEq, length, ← place]
  rw [skip_fewer place count, parts] at index
  cases r with
  | nil =>
    cases l with
    | nil => exact absurd remains List.not_mem_nil
    | cons high l =>
      have value : high = nextS := Option.some.inj index
      subst value
      refine (split.follows_highest inside' (taken List.mem_cons_self)).trans (or_congr_right ?_)
      rw [and_comm, List.length_nil]
      exact and_congr_right fun _ => iff_of_true rfl (by omega)
  | cons low r =>
    cases r with
    | nil =>
      cases l with
      | nil =>
        have value : s.level this = nextS := Option.some.inj index
        refine iff_of_true ((split.follows_lower inside' (List.mem_singleton.mp remains)).mpr ?_) (Or.inl value.symm)
        by_cases tied : low = s.level this
        · exact Or.inl tied
        · refine Or.inr fun i other same => tied ?_
          have single := split.perm.symm.subset (List.mem_map_of_mem other)
          exact (List.mem_singleton.mp single).symm.trans same
      | cons high l =>
        have value : high = nextS := Option.some.inj index
        subst value
        refine (split.follows_highest inside' (taken List.mem_cons_self)).trans (or_congr_right ?_)
        refine iff_of_false (fun both => List.cons_ne_nil low [] both.1) fun both => both.2 ?_
        simp only [List.length_cons, List.length_nil]
    | cons lower r =>
      rw [if_neg (by simp only [List.length_cons]; omega), List.getElem?_append_right (by omega),
        Nat.add_sub_cancel_left] at index
      have value : low = nextS := Option.some.inj index
      subst value
      refine (split.follows_lower inside' (taken (by simp))).trans (or_congr_right ?_)
      refine (and_iff_left ?_).symm
      simp only [List.length_cons]
      omega

theorem waits_none {flows : List ℕ} {i : ℕ} (member : i ∈ flows) (unknown : (s.pdwrr i).wt = 0) (total : ℚ) :
    s.waits flows total = none := by
  induction flows generalizing total with
  | nil => exact absurd member List.not_mem_nil
  | cons k flows ih =>
    rw [PDWRR.waits]
    split_ifs with first
    · rfl
    · exact ih ((List.mem_cons.mp member).resolve_left fun same => first (same ▸ unknown)) _

theorem gettotalTime_early {head i : ℕ} (member : i ∈ s.links.follow s.flwcnt.toNat head) (unknown : (s.pdwrr i).wt = 0) :
    s.gettotalTime head = some s := by
  unfold PDWRR.gettotalTime
  rw [waits_none member unknown]

/-- Nothing is recomputed for a flow that has sent last, or while a waiting time is unknown. -/
theorem steady_of_early (chosen : s.moveMaxS = some (mid, this)) (early : (s.pdwrr this).site = s.predequeSite ∨
    ∀ head, s.curr = some head → ∃ i ∈ s.links.follow s.flwcnt.toNat head, i ≠ this ∧ (s.pdwrr i).wt = 0) : Steady s mid := by
  obtain ⟨head, atHead, chosen⟩ := Option.bind_eq_some_iff.mp chosen
  obtain ⟨value, entry, chosen⟩ := Option.bind_eq_some_iff.mp chosen
  obtain ⟨tmp, found, chosen⟩ := Option.bind_eq_some_iff.mp chosen
  simp only at chosen
  split_ifs at chosen with switched
  · obtain ⟨u, total, result⟩ := Option.bind_eq_some_iff.mp chosen
    cases Option.some.inj result
    obtain ⟨i, member, other, unknown⟩ := (early.resolve_left switched) head atHead
    have same := total.symm.trans
      (gettotalTime_early member ((congrArg PacketPDWRR.wt (Function.update_of_ne other ..)).trans unknown))
    cases Option.some.inj same
    exact ⟨rfl, rfl, fun i => update_kept PacketPDWRR.S _ (by rfl) i⟩
  · cases Option.some.inj chosen
    exact ⟨rfl, rfl, fun _ => rfl⟩

end Turns

/-- A turn of the loop of `deque`, and where no level is recomputed for it the flow that the next turn visits,
whenever that is: after a turn that ends without a packet, and after the last packet of the flow when others have some. -/
def Turned (s : PDWRR) : Prop := ∃ mid this t out, s.moveMaxS = some (mid, this) ∧ s.visit = some (t, out) ∧
  (Steady s mid → ∀ later ≥ s.clock,
    (out = none → ∃ after next, moveMaxS { t with clock := later } = some (after, next) ∧
      (Follows (fun i => t.queues i ≠ []) t.level this next ↔ s.Distinct this)) ∧
    (out ≠ none → t.queues this = [] → 0 < t.flwcnt → ∃ after next, moveMaxS { t with clock := later } = some (after, next) ∧
      (Follows (fun i => t.queues i ≠ []) t.level this next ↔
        s.levels[({ s with flwcnt := s.flwcnt - 1 } : PDWRR).skip]? = some (s.level this) ∨
          s.Distinct this ∧ s.cerprique + 2 ≠ s.levels.length)))

theorem Sound.turned {s : PDWRR} {ring : List ℕ} (sound : Sound s ring) (some_ : ring ≠ []) : Turned s := by
  obtain ⟨mid, this, chosen, _⟩ := sound.moveMaxS some_
  obtain ⟨t, out, ring', visited, _, kept, _⟩ := sound.visit some_
  refine ⟨mid, this, t, out, chosen, visited, fun steady later late => ⟨?_, ?_⟩⟩
  · rintro rfl
    exact sound.exhausted_follows chosen steady visited (kept.clock.trans_le late)
  · intro sent empty others
    obtain ⟨pkt, rfl⟩ := Option.ne_none_iff_exists'.mp sent
    exact sound.emptied_follows chosen steady visited empty others (kept.clock.trans_le late)

/-- Flows 1, 2 and 3 with levels 3, 2 and 1, of which the first has had its turn. -/
def skippingCalls : List Call :=
  [.enque (packet 1 5 300) 0, .enque (packet 2 5 300) 0, .enque (packet 3 110 100) 0, .enque (packet 4 210 100) 0,
    .deque 90 0, .deque 1 0]

/-- The turn of every state that the calls reach, those in the loop of a `deque` among them. -/
theorem visiting_order (sqrt : Sqrt) (blimit : ℕ) (levels : Fin 16 → ℚ) (start : ℚ) (calls : List Call)
    (proper : ∀ call ∈ calls, call.Proper) (ordered : (start :: calls.map Call.clock).Pairwise (· ≤ ·)) : ∃ s outs,
    (machine sqrt).run (make blimit levels start) calls = some (s, outs) ∧
      (0 < s.bytecnt → ∀ clock ≥ s.clock, Turned { s with clock := clock }) := by
  obtain ⟨s, outs, ring, run, holds⟩ := run_holds sqrt blimit levels start proper ordered
  refine ⟨s, outs, run, fun positive clock waited => ?_⟩
  exact (holds.sound.wait waited).turned (holds.sound.table.counts.active holds.sound.active positive.ne')

theorem visiting_order_sample : ∃ s outs, (machine root).run (make 2000 (fun _ => 0) 0) skippingCalls = some (s, outs) ∧
    (0 < s.bytecnt → ∀ clock ≥ s.clock, Turned { s with clock := clock }) :=
  visiting_order root 2000 (fun _ => 0) 0 skippingCalls (by decide) (by decide +kernel)

/-- The turn of flow 2 sends its only packet, and flow 1 comes next instead of flow 3. -/
theorem lowest_flow_skipped : ∃ s outs mid t after, (machine root).run (make 2000 (fun _ => 0) 0) skippingCalls = some (s, outs) ∧
    moveMaxS s = some (mid, 2) ∧ Steady s mid ∧ visit s = some (t, some (packet 3 110 100)) ∧ t.queues 2 = [] ∧ t.flwcnt = 2 ∧
    moveMaxS t = some (after, 1) ∧ ¬Follows (fun i => t.queues i ≠ []) t.level 2 1 := by
  have known : ((machine root).run (make 2000 (fun _ => 0) 0) skippingCalls).bind (fun reached => reached.1.moveMaxS.bind
      fun chosen => reached.1.visit.bind fun turn => turn.1.moveMaxS.bind fun chosen' =>
        some ([chosen.2, chosen'.2, (turn.1.queues 2).length, (turn.1.queues 3).length, turn.1.flwcnt.toNat], turn.2,
          (reached.1.curr, reached.1.links.follow reached.1.flwcnt.toNat 1), (reached.1.pdwrr 3).wt :: [1, 2, 3].map turn.1.level)) =
      some ([2, 1, 0, 1, 2], some (packet 3 110 100), (some 1, [1, 2, 3]), [0, 3, 2, 1]) := by decide +kernel
  obtain ⟨⟨s, outs⟩, run, known⟩ := Option.bind_eq_some_iff.mp known
  obtain ⟨⟨mid, this⟩, chosen, known⟩ := Option.bind_eq_some_iff.mp known
  obtain ⟨⟨t, out⟩, visited, known⟩ := Option.bind_eq_some_iff.mp known
  obtain ⟨⟨after, next⟩, chosen', known⟩ := Option.bind_eq_some_iff.mp known
  simp only [Option.some.injEq, Prod.mk.injEq, List.map_cons, List.map_nil, List.cons.injEq] at known
  obtain ⟨⟨rfl, rfl, empty, live, count, _⟩, rfl, ⟨atHead, ring⟩, unknown, high, middle, low, _⟩ := known
  refine ⟨s, outs, mid, t, after, run, chosen, steady_of_early chosen (Or.inr ?_), visited, List.length_eq_zero_iff.mp empty,
    by omega, chosen', fun follows => ?_⟩
  · intro head same
    cases Option.some.inj (atHead.symm.trans same)
    exact ⟨3, by rw [ring]; simp, by decide, unknown⟩
  · have active : t.queues 3 ≠ [] := List.ne_nil_of_length_eq_add_one live
    rcases follows.order with ⟨lower, _⟩ | ⟨last, _⟩
    · rw [high, middle] at lower
      exact absurd lower (by decide)
    · have above := last 3 active (by decide)
      rw [low, middle] at above
      exact absurd above (by decide)

end Ns2.PDWRR
