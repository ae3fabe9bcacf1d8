import Ns2.Queue.PDWRR
import Mathlib.Algebra.BigOperators.Ring.Finset

namespace Ns2.PDWRR

open PacketPDWRR (Sane first_eq record_eq grant_eq rebalance_sane)

def queues (s : PDWRR) (i : ℕ) : PacketQueue := (s.pdwrr i).queue

/-- The counters of the flows and their totals. -/
abbrev Counts (s : PDWRR) : Prop :=
  FlowTally 4 s.queues (fun i => (s.pdwrr i).pkts) (fun i => (s.pdwrr i).bcount) s.packets s.bytecnt

/-- `ring` is the circle of the active flows from `curr` on. -/
abbrev Active (s : PDWRR) (ring : List ℕ) : Prop := ActiveRing s.links s.curr s.flwcnt s.queues ring

/-- The counters of all flows, and what the flows of `ring` are known by. -/
structure Table (s : PDWRR) (ring : List ℕ) : Prop where
  counts : Counts s
  pointer : s.cerprique < s.levels.length
  quantum : 1 ≤ s.quantum
  site : ∀ i ∈ ring, (s.pdwrr i).site = i
  onTime : ∀ i ∈ ring, s.onTime i ≤ s.clock
  sane : ∀ i, Sane (s.pdwrr i)

/-- The levels are those of the flows of `ring`, from the largest on. -/
structure Ranked (s : PDWRR) (ring : List ℕ) : Prop where
  perm : s.levels.Perm (ring.map fun i => (s.pdwrr i).S)
  sorted : s.levels.Pairwise (· ≥ ·)
  cerprique : s.cerprique < ring.length

/-- The state between two calls, and in the loops of a call. -/
structure Sound (s : PDWRR) (ring : List ℕ) : Prop where
  table : Table s ring
  active : Active s ring
  ranked : ring ≠ [] → Ranked s ring

section Fields

variable {s t : PDWRR} {ring : List ℕ} {k : ℕ} {q : PacketPDWRR} {pkt : Packet} {rest : PacketQueue}

theorem queues_setFlow (queue : q.queue = (s.pdwrr k).queue) : (s.setFlow k q).queues = s.queues :=
  funext (update_kept PacketPDWRR.queue _ queue)

theorem packets_eq (s : PDWRR) : s.packets = ∑ i ∈ Finset.range 4, (s.queues i).length := rfl

/-- The number of packets is that of the queues, and not kept. -/
theorem counts_of {packets : ℤ} (tally : FlowTally 4 s.queues (fun i => (s.pdwrr i).pkts) (fun i => (s.pdwrr i).bcount) packets
    s.bytecnt) : Counts s ∧ packets = s.packets := by
  have same : packets = s.packets := by
    rw [tally.packets_sum, packets_eq, Nat.cast_sum]
    exact Finset.sum_congr rfl fun i _ => tally.counted i
  unfold Counts
  rw [← same]
  exact ⟨tally, rfl⟩

theorem counts_congr (counts : Counts s) (queues : t.queues = s.queues) (pkts : ∀ i, (t.pdwrr i).pkts = (s.pdwrr i).pkts)
    (bcount : ∀ i, (t.pdwrr i).bcount = (s.pdwrr i).bcount) (bytecnt : t.bytecnt = s.bytecnt) : Counts t := by
  unfold Counts
  rw [packets_eq, queues, funext pkts, funext bcount, bytecnt, ← packets_eq]
  exact counts

theorem Table.subset {ring' : List ℕ} (table : Table s ring) (fewer : ∀ i ∈ ring', i ∈ ring) : Table s ring' where
  counts := table.counts
  pointer := table.pointer
  quantum := table.quantum
  site i member := table.site i (fewer i member)
  onTime i member := table.onTime i (fewer i member)
  sane := table.sane

/-- The queue of a flow and its counters stay. -/
theorem Table.setFlow (table : Table s ring) (queue : q.queue = (s.pdwrr k).queue) (pkts : q.pkts = (s.pdwrr k).pkts)
    (bcount : q.bcount = (s.pdwrr k).bcount) (site : k ∈ ring → q.site = k) (sane : Sane q) :
    Table (s.setFlow k q) ring where
  counts := counts_congr table.counts (queues_setFlow queue) (update_kept PacketPDWRR.pkts _ pkts)
    (update_kept PacketPDWRR.bcount _ bcount) rfl
  pointer := table.pointer
  quantum := table.quantum
  site i member := by
    by_cases own : i = k
    · subst own
      simpa [PDWRR.setFlow] using site member
    · simpa [PDWRR.setFlow, own] using table.site i member
  onTime := table.onTime
  sane i := by
    by_cases own : i = k
    · subst own
      simpa [PDWRR.setFlow] using sane
    · simpa [PDWRR.setFlow, own] using table.sane i

theorem Ranked.setFlow (ranked : Ranked s ring) (level : q.S = (s.pdwrr k).S) : Ranked (s.setFlow k q) ring where
  perm := by
    have same : (ring.map fun i => ((s.setFlow k q).pdwrr i).S) = ring.map fun i => (s.pdwrr i).S :=
      List.map_congr_left fun i _ => update_kept PacketPDWRR.S _ level i
    rw [same]
    exact ranked.perm
  sorted := ranked.sorted
  cerprique := ranked.cerprique

theorem Active.setFlow (active : Active s ring) (queue : q.queue = (s.pdwrr k).queue) : Active (s.setFlow k q) ring := by
  unfold Active
  rw [queues_setFlow queue]
  exact active

theorem Sound.setFlow (sound : Sound s ring) (queue : q.queue = (s.pdwrr k).queue) (pkts : q.pkts = (s.pdwrr k).pkts)
    (bcount : q.bcount = (s.pdwrr k).bcount) (site : q.site = (s.pdwrr k).site) (level : q.S = (s.pdwrr k).S) (sane : Sane q) :
    Sound (s.setFlow k q) ring where
  table := sound.table.setFlow queue pkts bcount (fun member => site.trans (sound.table.site k member)) sane
  active := sound.active.setFlow queue
  ranked some := (sound.ranked some).setFlow level

theorem queues_take (s : PDWRR) (k : ℕ) (pkt : Packet) : (s.take k pkt).queues = Function.update s.queues k (s.queues k).tail :=
  funext fun i => Function.apply_update (fun _ => PacketPDWRR.queue) s.pdwrr k _ i

/-- An arrival writes to one flow. Only the first packet of all gives it a level. -/
theorem store_eq (s : PDWRR) (pkt : Packet) (known : k = 1 ∨ k = 2 ∨ k = 3) (sane : Sane (s.pdwrr k)) : ∃ q,
    s.store k pkt = { s.setFlow k q with bytecnt := s.bytecnt + pkt.size } ∧ q.queue = s.queues k ++ [pkt] ∧
      q.pkts = (s.pdwrr k).pkts + 1 ∧ q.bcount = (s.pdwrr k).bcount + pkt.size ∧ q.site = (s.pdwrr k).site ∧
      q.turn = (s.pdwrr k).turn ∧ (0 < (s.pdwrr k).pcount → q.S = (s.pdwrr k).S) ∧ (0 ≤ (s.pdwrr k).pcount → Sane q) := by
  let arrived : PacketPDWRR := { s.pdwrr k with
    queue := s.queues k ++ [pkt], pkts := (s.pdwrr k).pkts + 1, pcount := (s.pdwrr k).pcount + 1,
    bcount := (s.pdwrr k).bcount + pkt.size }
  have more : arrived.pkts ≤ arrived.pcount := Int.add_le_add_right sane.pcount 1
  have count : arrived.pcount = (s.pdwrr k).pcount + 1 := rfl
  by_cases one : arrived.pcount = 1
  · obtain ⟨weight, shape, S, t0, pktOne, first, high⟩ := first_eq k s.clock arrived
    have result : s.store k pkt = { s.setFlow k (PacketPDWRR.first k s.clock arrived) with bytecnt := s.bytecnt + pkt.size } :=
      congrArg (fun q => ({ s.setFlow k q with bytecnt := s.bytecnt + pkt.size } : PDWRR)) (if_pos one)
    refine ⟨_, result, ?_⟩
    rw [first]
    exact ⟨rfl, rfl, rfl, rfl, rfl, fun positive => by omega, fun _ => ⟨sane.wt, sane.deficit, more, fun _ => high known⟩⟩
  · have result : s.store k pkt = { s.setFlow k arrived with bytecnt := s.bytecnt + pkt.size } :=
      congrArg (fun q => ({ s.setFlow k q with bytecnt := s.bytecnt + pkt.size } : PDWRR)) (if_neg one)
    refine ⟨arrived, result, rfl, rfl, rfl, rfl, rfl, fun _ => rfl, fun old => ⟨sane.wt, sane.deficit, more, fun _ => ?_⟩⟩
    exact sane.weight (by omega)

end Fields

section Changes

variable {s t : PDWRR} {ring : List ℕ} {k head : ℕ} {q : PacketPDWRR} {pkt : Packet} {rest : PacketQueue}

theorem Table.pcount (table : Table s ring) (k : ℕ) : 0 ≤ (s.pdwrr k).pcount := by
  have stored := table.counts.counted k
  have least := (table.sane k).pcount
  omega

/-- An arrival, before the circle takes note of it. -/
theorem Table.store (table : Table s ring) (known : k = 1 ∨ k = 2 ∨ k = 3) (size : 0 < pkt.size) :
    Table (s.store k pkt) ring ∧ (s.store k pkt).queues = Function.update s.queues k (s.queues k ++ [pkt]) ∧
      (s.queues k ≠ [] → ∀ i, ((s.store k pkt).pdwrr i).S = (s.pdwrr i).S) := by
  obtain ⟨q, result, queue, pkts, bcount, site, turn, level, sane⟩ := store_eq s pkt known (table.sane k)
  have pcount := table.pcount k
  have queues : (s.store k pkt).queues = Function.update s.queues k (s.queues k ++ [pkt]) := by
    rw [result, ← queue]
    exact funext fun i => Function.apply_update (fun _ => PacketPDWRR.queue) s.pdwrr k q i
  have tally := table.counts.push (k := k) (by omega) size
  refine ⟨⟨?_, ?_, ?_, ?_, ?_, ?_⟩, queues, fun some i => ?_⟩
  · refine (@counts_of _ (s.packets + 1) ?_).1
    rw [queues, result]
    convert tally using 1
    · rw [← pkts]
      exact funext fun i => Function.apply_update (fun _ => PacketPDWRR.pkts) s.pdwrr k q i
    · rw [← bcount]
      exact funext fun i => Function.apply_update (fun _ => PacketPDWRR.bcount) s.pdwrr k q i
  · rw [result]
    exact table.pointer
  · rw [result]
    exact table.quantum
  · rw [result]
    exact fun i member => (update_kept PacketPDWRR.site _ site i).trans (table.site i member)
  · rw [result]
    exact table.onTime
  · rw [result]
    intro i
    by_cases own : i = k
    · subst own
      simpa [PDWRR.setFlow] using sane pcount
    · simpa [PDWRR.setFlow, own] using table.sane i
  · rw [result]
    refine update_kept PacketPDWRR.S _ (level ?_) i
    have stored := table.counts.counted k
    have several := List.length_pos_of_ne_nil some
    have least := (table.sane k).pcount
    omega

theorem Table.take (table : Table s ring) (queue : s.queues k = pkt :: rest) :
    Table (s.take k pkt) ring ∧ (s.take k pkt).queues = Function.update s.queues k rest ∧
      (s.take k pkt).packets + 1 = s.packets ∧ ((s.take k pkt).pdwrr k).pkts = rest.length := by
  have queues := queues_take s k pkt
  rw [queue, List.tail_cons] at queues
  have tally := table.counts.pop queue
  obtain ⟨counts, fewer⟩ : Counts (s.take k pkt) ∧ (s.packets : ℤ) - 1 = (s.take k pkt).packets := by
    refine counts_of ?_
    rw [queues]
    convert tally using 1
    · exact funext fun i => Function.apply_update (fun _ => PacketPDWRR.pkts) s.pdwrr k _ i
    · exact funext fun i => Function.apply_update (fun _ => PacketPDWRR.bcount) s.pdwrr k _ i
    · rfl
  refine ⟨⟨counts, table.pointer, table.quantum, fun i member => ?_, table.onTime, fun i => ?_⟩, queues, by omega, ?_⟩
  · exact (update_kept PacketPDWRR.site _ (by rfl) i).trans (table.site i member)
  · by_cases own : i = k
    · subst own
      have sane := table.sane i
      have less : (s.pdwrr i).pkts - 1 ≤ (s.pdwrr i).pcount := by
        have before := sane.pcount
        omega
      have written : (s.take i pkt).pdwrr i = { s.pdwrr i with
          queue := (s.pdwrr i).queue.deque.2, pkts := (s.pdwrr i).pkts - 1, bcount := (s.pdwrr i).bcount - pkt.size } :=
        Function.update_self ..
      rw [written]
      exact ⟨sane.wt, sane.deficit, less, sane.weight⟩
    · simpa [PDWRR.take, PDWRR.setFlow, own] using table.sane i
  · rw [counts.counted, queues, Function.update_self]

end Changes

section Tables

variable {s t : PDWRR} {ring : List ℕ} {k head : ℕ} {q : PacketPDWRR} {totalTime : ℚ}

theorem relocate_foldl (nextS : ℚ) (levels : List ℚ) (start found : ℕ) :
    let last := (levels.zipIdx start).foldl (fun found entry => if entry.1 = nextS then entry.2 else found) found
    last = found ∨ last < start + levels.length := by
  induction levels generalizing start found with
  | nil => exact Or.inl rfl
  | cons level levels ih =>
    rw [List.zipIdx_cons, List.foldl_cons, List.length_cons]
    rcases ih (start + 1) (if level = nextS then start else found) with same | inside
    · simp only [same]
      split_ifs
      · exact Or.inr (by omega)
      · exact Or.inl rfl
    · exact Or.inr (inside.trans_eq (by omega))

theorem relocate_mem {nextS : ℚ} {levels : List ℚ} (start found : ℕ) (member : nextS ∈ levels) :
    (levels.zipIdx start).foldl (fun found entry => if entry.1 = nextS then entry.2 else found) found <
      start + levels.length := by
  induction levels generalizing start found with
  | nil => exact absurd member List.not_mem_nil
  | cons level levels ih =>
    rw [List.zipIdx_cons, List.foldl_cons, List.length_cons]
    by_cases own : level = nextS
    · rcases relocate_foldl nextS levels (start + 1) start with same | inside
      · simp only [own, if_pos, same]
        omega
      · simp only [own, if_pos]
        omega
    · have later := ih (start + 1) found ((List.mem_cons.mp member).resolve_left (Ne.symm own))
      simp only [own, if_false]
      omega

theorem relocate_lt {levels : List ℚ} (nextS : ℚ) (cerprique : ℕ) (some : levels ≠ []) :
    relocate levels nextS cerprique < levels.length := by
  unfold relocate
  split_ifs with member
  · simpa using relocate_mem 0 cerprique member
  · exact List.length_pos_of_ne_nil some

/-- The levels are made anew from the circle, and the index finds a place in them. -/
theorem Table.rearr (table : Table s ring) (active : Active s ring) : ∃ levels cerprique,
    s.rearr = some { s with levels := levels, cerprique := cerprique } ∧
      Sound { s with levels := levels, cerprique := cerprique } ring := by
  obtain ⟨nextS, entry⟩ : ∃ nextS, s.levels[s.cerprique]? = some nextS := ⟨_, List.getElem?_eq_getElem table.pointer⟩
  rcases Option.eq_none_or_eq_some s.curr with atHead | ⟨head, atHead⟩
  · have none : ring = [] := by
      have first := active.linked.head
      rw [atHead] at first
      exact List.head?_eq_none_iff.mp first.symm
    have result : s.rearr = some s := by
      unfold PDWRR.rearr
      rw [entry]
      simp only [atHead, Option.bind_eq_bind, Option.bind_some]
      rfl
    exact ⟨s.levels, s.cerprique, result, table, active, fun some => absurd none some⟩
  · let unsorted := ring.map fun i => (s.pdwrr i).S
    have count : s.flwcnt.toNat = unsorted.length := by rw [active.flwcnt_eq, Int.toNat_natCast, List.length_map]
    have walk := active.follow atHead
    rw [count] at walk
    have perm := BubbleSort.sort_perm unsorted
    have some : BubbleSort.sort unsorted.length unsorted ≠ [] := by
      obtain ⟨t, rfl⟩ := active.ring_some atHead
      exact List.ne_nil_of_length_pos (by rw [perm.length_eq]; exact Nat.succ_pos _)
    have inside := relocate_lt nextS s.cerprique some
    refine ⟨BubbleSort.sort unsorted.length unsorted, relocate _ nextS s.cerprique, ?_,
      ⟨table.counts, inside, table.quantum, table.site, table.onTime, table.sane⟩, active, fun _ => ⟨perm,
        BubbleSort.sort_sorted _, ?_⟩⟩
    · unfold PDWRR.rearr
      rw [entry]
      simp only [atHead, count, walk, Option.bind_eq_bind, Option.bind_some]
      rfl
    · exact inside.trans_eq (by rw [perm.length_eq, List.length_map])

/-- The limit and the clock stay. -/
structure Kept (s t : PDWRR) : Prop where
  blimit : t.blimit = s.blimit
  clock : t.clock = s.clock

theorem Kept.trans {u : PDWRR} (first : Kept s t) (second : Kept t u) : Kept s u :=
  ⟨second.blimit.trans first.blimit, second.clock.trans first.clock⟩

/-- Only levels and what they are computed from change. -/
structure Reweighed (s t : PDWRR) : Prop extends Kept s t where
  curr : t.curr = s.curr
  flwcnt : t.flwcnt = s.flwcnt
  queues : t.queues = s.queues
  deficit : ∀ i, (t.pdwrr i).deficitCounter = (s.pdwrr i).deficitCounter
  turn : ∀ i, (t.pdwrr i).turn = (s.pdwrr i).turn

theorem Reweighed.refl (s : PDWRR) : Reweighed s s := ⟨⟨rfl, rfl⟩, rfl, rfl, rfl, fun _ => rfl, fun _ => rfl⟩

theorem Reweighed.trans {u : PDWRR} (first : Reweighed s t) (second : Reweighed t u) : Reweighed s u where
  toKept := first.toKept.trans second.toKept
  curr := second.curr.trans first.curr
  flwcnt := second.flwcnt.trans first.flwcnt
  queues := second.queues.trans first.queues
  deficit i := (second.deficit i).trans (first.deficit i)
  turn i := (second.turn i).trans (first.turn i)

theorem Reweighed.setFlow (queue : q.queue = (s.pdwrr k).queue) (deficit : q.deficitCounter = (s.pdwrr k).deficitCounter)
    (turn : q.turn = (s.pdwrr k).turn) : Reweighed s (s.setFlow k q) :=
  ⟨⟨rfl, rfl⟩, rfl, rfl, queues_setFlow queue, update_kept PacketPDWRR.deficitCounter _ deficit,
    update_kept PacketPDWRR.turn _ turn⟩

theorem rebalance_kept (totalTime : ℚ) (q : PacketPDWRR) : (rebalance totalTime q).queue = q.queue ∧
    (rebalance totalTime q).pkts = q.pkts ∧ (rebalance totalTime q).bcount = q.bcount ∧
    (rebalance totalTime q).site = q.site ∧ (rebalance totalTime q).deficitCounter = q.deficitCounter ∧
    (rebalance totalTime q).turn = q.turn := by
  unfold rebalance
  split_ifs <;> exact ⟨rfl, rfl, rfl, rfl, rfl, rfl⟩

theorem Table.rebalances (totalTime : ℚ) (flows : List ℕ) (table : Table s ring) (active : Active s ring) :
    let t := flows.foldl (fun s i => s.setFlow i (rebalance totalTime (s.pdwrr i))) s
    Table t ring ∧ Active t ring ∧ Reweighed s t := by
  induction flows generalizing s with
  | nil => exact ⟨table, active, Reweighed.refl s⟩
  | cons k flows ih =>
    obtain ⟨queue, pkts, bcount, site, deficit, turn⟩ := rebalance_kept totalTime (s.pdwrr k)
    have written := table.setFlow queue pkts bcount (fun member => site.trans (table.site k member))
      (rebalance_sane (table.sane k) totalTime)
    obtain ⟨table', active', same⟩ := ih written (Active.setFlow active queue)
    exact ⟨table', active', (Reweighed.setFlow queue deficit turn).trans same⟩

theorem waits_lt {flows : List ℕ} {start total : ℚ} (sane : ∀ i, Sane (s.pdwrr i)) (done : s.waits flows start = some total) :
    start ≤ total ∧ (flows ≠ [] → start < total) := by
  induction flows generalizing start with
  | nil => exact ⟨(Option.some.inj done).le, fun some => absurd rfl some⟩
  | cons k flows ih =>
    unfold waits at done
    split_ifs at done with none
    have positive := lt_of_le_of_ne (sane k).wt (Ne.symm none)
    have later := (ih done).1
    exact ⟨by linarith, fun _ => by linarith⟩

/-- The sum of the waiting times is not 0 when it is divided by. -/
theorem Sound.gettotalTime (sound : Sound s ring) (atHead : s.curr = some head) :
    ∃ t, s.gettotalTime head = some t ∧ Sound t ring ∧ Reweighed s t := by
  unfold PDWRR.gettotalTime
  have walk := sound.active.follow atHead
  rw [walk]
  cases waited : s.waits ring 0 with
  | none => exact ⟨s, rfl, sound, Reweighed.refl s⟩
  | some total =>
    have positive : 0 < total := by
      obtain ⟨t, rfl⟩ := sound.active.ring_some atHead
      exact (waits_lt sound.table.sane waited).2 (List.cons_ne_nil head t)
    obtain ⟨table, active, same⟩ := sound.table.rebalances total ring sound.active
    obtain ⟨levels, cerprique, rearranged, sound'⟩ := table.rearr active
    refine ⟨_, ?_, sound', same.trans ⟨⟨rfl, rfl⟩, rfl, rfl, rfl, fun _ => rfl, fun _ => rfl⟩⟩
    simp only [positive.ne', if_false, sound.active.iterate atHead, walk]
    exact rearranged

/-- The walk finds a flow of the level that the index points at. -/
theorem Sound.moveMaxS (sound : Sound s ring) (some : ring ≠ []) :
    ∃ t this, s.moveMaxS = Option.some (t, this) ∧ this ∈ ring ∧ Sound t ring ∧ Reweighed s t := by
  obtain ⟨head, _, atHead, _⟩ := sound.active.curr_some some
  have ranked := sound.ranked some
  obtain ⟨level, entry⟩ : ∃ level, s.levels[s.cerprique]? = Option.some level :=
    ⟨_, List.getElem?_eq_getElem sound.table.pointer⟩
  obtain ⟨i, member, same⟩ := List.mem_map.mp (ranked.perm.subset (List.mem_of_getElem? entry))
  obtain ⟨this, l, r, split, found, _⟩ := sound.active.seek (p := fun i => (s.pdwrr i).S = level) atHead member (decide_eq_true same)
  have inside : this ∈ ring := by rw [split]; exact List.mem_append_cons_self
  have search : ∀ {next}, (if (s.pdwrr this).site ≠ s.predequeSite then do
      let u : PDWRR := { s with offTime := Function.update s.offTime (s.pdwrr this).site s.clock }
      let u := u.setFlow this { u.pdwrr this with wt := u.offTime (s.pdwrr this).site - u.onTime (s.pdwrr this).site }
      let u ← u.gettotalTime head
      return (u, this)
      else return (s, this)) = Option.some next → s.moveMaxS = Option.some next := fun rest =>
    Option.bind_eq_some_iff.mpr ⟨head, atHead, Option.bind_eq_some_iff.mpr ⟨level, entry,
      Option.bind_eq_some_iff.mpr ⟨this, found, rest⟩⟩⟩
  by_cases switched : (s.pdwrr this).site ≠ s.predequeSite
  · have sane := sound.table.sane this
    let site := (s.pdwrr this).site
    let u : PDWRR := { s with offTime := Function.update s.offTime site s.clock }
    let q : PacketPDWRR := { u.pdwrr this with wt := u.offTime site - u.onTime site }
    have noted : Sound u ring := ⟨⟨sound.table.counts, sound.table.pointer, sound.table.quantum, sound.table.site,
      sound.table.onTime, sound.table.sane⟩, sound.active, fun some => ⟨ranked.perm, ranked.sorted, ranked.cerprique⟩⟩
    have waited : 0 ≤ u.offTime site - u.onTime site := by
      have before := sound.table.onTime this inside
      have own : site = this := sound.table.site this inside
      simp only [u, own, Function.update_self]
      linarith
    have timed : Sound (u.setFlow this q) ring :=
      noted.setFlow rfl rfl rfl rfl rfl ⟨waited, sane.deficit, sane.pcount, sane.weight⟩
    obtain ⟨t, total, sound', same⟩ := timed.gettotalTime atHead
    have start : Reweighed u (u.setFlow this q) := Reweighed.setFlow rfl rfl rfl
    have begun : Reweighed s u := ⟨⟨rfl, rfl⟩, rfl, rfl, rfl, fun _ => rfl, fun _ => rfl⟩
    refine ⟨t, this, search ?_, inside, sound', begun.trans (start.trans same)⟩
    rw [if_pos switched]
    exact Option.bind_eq_some_iff.mpr ⟨t, total, rfl⟩
  · exact ⟨s, this, search (if_neg switched), inside, sound, Reweighed.refl s⟩

end Tables

section Arrivals

variable {s : PDWRR} {ring : List ℕ} {k head : ℕ} {pkt : Packet} {rest : PacketQueue} {l : Ledger Packet}

theorem Sound.record (sound : Sound s ring) (sqrt : Sqrt) (member : k ∈ ring) (known : k = 1 ∨ k = 2 ∨ k = 3) :
    Sound (s.setFlow k (PacketPDWRR.record sqrt s.clock (s.pdwrr k))) ring ∧
      (s.setFlow k (PacketPDWRR.record sqrt s.clock (s.pdwrr k))).queues = s.queues := by
  have site := sound.table.site k member
  obtain ⟨weight, shape, Lf, t0, pktOne, tflag, noted, more⟩ :=
    record_eq sqrt s.clock (q := s.pdwrr k) (by rw [site]; exact known)
  rw [noted]
  exact ⟨sound.setFlow rfl rfl rfl rfl rfl ((sound.table.sane k).raise more), queues_setFlow rfl⟩

/-- A flow that got its first packet joins the circle. -/
theorem Table.activate (table : Table s ring) (active : ActiveRing (s.links.activate k s.curr).1 (s.links.activate k s.curr).2
    (s.flwcnt + 1) s.queues (ring ++ [k])) :
    ∃ t, s.activate k = some t ∧ Sound t (ring ++ [k]) ∧ t.queues = s.queues ∧ Kept s t := by
  have sane := table.sane k
  let q : PacketPDWRR := { s.pdwrr k with site := k, deficitCounter := 0 }
  have written : Table (s.setFlow k q) ring := table.setFlow rfl rfl rfl (fun _ => rfl) ⟨sane.wt, le_refl 0, sane.pcount, sane.weight⟩
  let u : PDWRR := { s.setFlow k q with
    links := (s.links.activate k s.curr).1, curr := (s.links.activate k s.curr).2,
    onTime := Function.update s.onTime k s.clock, flwcnt := s.flwcnt + 1 }
  have queues : u.queues = s.queues := queues_setFlow rfl
  have grown : Table u (ring ++ [k]) := by
    refine ⟨written.counts, written.pointer, written.quantum, fun i member => ?_, fun i member => ?_, written.sane⟩
    · by_cases own : i = k
      · subst own
        simp [u, q, PDWRR.setFlow]
      · exact written.site i ((List.mem_append.mp member).resolve_right (by simpa using own))
    · by_cases own : i = k
      · subst own
        simp [u, PDWRR.setFlow]
      · have before := written.onTime i ((List.mem_append.mp member).resolve_right (by simpa using own))
        exact (Function.update_of_ne own s.clock s.onTime).trans_le before
  obtain ⟨levels, cerprique, rearranged, sound⟩ := grown.rearr (by unfold Active; rw [queues]; exact active)
  exact ⟨_, rearranged, sound, queues, rfl, rfl⟩

theorem arrive_of {t : PDWRR} (sqrt : Sqrt) (joined : (if ((s.store k pkt).pdwrr k).pkts = 1 then (s.store k pkt).activate k
    else some (s.store k pkt)) = some t) :
    s.arrive sqrt k pkt = some (t.setFlow k (PacketPDWRR.record sqrt t.clock (t.pdwrr k))) := by
  unfold PDWRR.arrive
  split_ifs at joined ⊢ with one
  · simp only [one, if_true, joined, Option.bind_eq_bind, Option.bind_some]
    rfl
  · cases Option.some.inj joined
    simp only [one, if_false]
    rfl

theorem Sound.arrive (sound : Sound s ring) (sqrt : Sqrt) (known : k = 1 ∨ k = 2 ∨ k = 3) (size : 0 < pkt.size) :
    ∃ t ring', s.arrive sqrt k pkt = some t ∧ Sound t ring' ∧
      t.queues = Function.update s.queues k (s.queues k ++ [pkt]) ∧ Kept s t := by
  obtain ⟨table, queues, level⟩ := sound.table.store known size
  have count : ((s.store k pkt).pdwrr k).pkts = (s.queues k).length + 1 := by
    rw [table.counts.counted, queues, Function.update_self, List.length_append, List.length_singleton]
    rfl
  have some : s.queues k ++ [pkt] ≠ [] := by simp
  by_cases empty : s.queues k = []
  · have one : ((s.store k pkt).pdwrr k).pkts = 1 := by rw [count, empty]; rfl
    have active := sound.active.enter empty some
    rw [← queues] at active
    obtain ⟨u, activated, sound', queues', kept⟩ := table.activate active
    obtain ⟨recorded, same⟩ := sound'.record sqrt (List.mem_append_right ring List.mem_cons_self) known
    exact ⟨_, ring ++ [k], arrive_of sqrt ((if_pos one).trans activated), recorded, by rw [same, queues', queues], kept.blimit,
      kept.clock⟩
  · have several : ((s.store k pkt).pdwrr k).pkts ≠ 1 := by
      have positive := List.length_pos_of_ne_nil empty
      omega
    have active := sound.active.write empty some
    rw [← queues] at active
    have stored : Sound (s.store k pkt) ring := by
      refine ⟨table, active, fun some => ⟨?_, (sound.ranked some).sorted, (sound.ranked some).cerprique⟩⟩
      rw [funext (level empty)]
      exact (sound.ranked some).perm
    obtain ⟨recorded, same⟩ := stored.record sqrt ((sound.active.member k).mpr empty) known
    exact ⟨_, ring, arrive_of sqrt (if_neg several), recorded, by rw [same, queues], rfl, rfl⟩

/-- The index of the next level is that of a level that there was. -/
theorem Sound.skip_lt (sound : Sound s ring) (some : ring ≠ []) {flwcnt : ℤ} (fewer : flwcnt ≤ s.flwcnt) :
    (if ((s.cerprique + 1 : ℕ) : ℤ) ≥ flwcnt then 0 else s.cerprique + 1) < s.levels.length := by
  have count : s.levels.length = ring.length := by rw [(sound.ranked some).perm.length_eq, List.length_map]
  have positive := List.length_pos_of_ne_nil some
  have flows := sound.active.flwcnt_eq
  split_ifs <;> omega

/-- A flow whose last packet is gone leaves the circle. -/
theorem Table.leave {t u : PDWRR} {x : ℚ} (table : Table t ring) (active : Active s ring) (atHead : s.curr = some head)
    (member : k ∈ ring) (queues : t.queues = Function.update s.queues k []) (pdwrr : u.pdwrr = t.pdwrr)
    (bytecnt : u.bytecnt = t.bytecnt) (quantum : u.quantum = t.quantum) (clock : u.clock = t.clock)
    (onTime : u.onTime = Function.update t.onTime k x) (pointer : u.cerprique < u.levels.length)
    (links : u.links = (s.links.idle k head).1) (curr : u.curr = (s.links.idle k head).2) (flwcnt : u.flwcnt = s.flwcnt - 1) :
    ∃ levels cerprique, u.rearr = some { u with levels := levels, cerprique := cerprique } ∧
      Sound { u with levels := levels, cerprique := cerprique } (ring.erase k) := by
  have queues' : u.queues = Function.update s.queues k [] := by
    rw [← queues]
    exact funext fun i => by rw [PDWRR.queues, pdwrr, PDWRR.queues]
  refine Table.rearr ⟨counts_congr table.counts (queues'.trans queues.symm) (fun i => by rw [pdwrr]) (fun i => by rw [pdwrr])
    bytecnt, pointer, quantum ▸ table.quantum, fun i inside => ?_, fun i inside => ?_, fun i => pdwrr ▸ table.sane i⟩ ?_
  · rw [pdwrr]
    exact table.site i (List.mem_of_mem_erase inside)
  · have other : i ≠ k := (active.nodup.mem_erase_iff.mp inside).1
    rw [onTime, clock, Function.update_of_ne other]
    exact table.onTime i (List.mem_of_mem_erase inside)
  · have left := active.leave atHead member
    unfold Active
    rw [links, curr, flwcnt, queues']
    exact left

/-- The overflow loop has emptied a flow. -/
theorem Sound.vacate (sound : Sound s ring) (atHead : s.curr = some head) (queue : s.queues k = [pkt]) :
    ∃ t, (s.take k pkt).vacate k head = some t ∧ Sound t (ring.erase k) ∧ t.queues = Function.update s.queues k [] ∧ Kept s t := by
  have member : k ∈ ring := (sound.active.member k).mpr (by simp [queue])
  have some := List.ne_nil_of_mem member
  obtain ⟨table, queues, _⟩ := sound.table.take queue
  obtain ⟨level, entry⟩ : ∃ level, s.levels[s.cerprique]? = Option.some level :=
    ⟨_, List.getElem?_eq_getElem sound.table.pointer⟩
  let idled : PDWRR := { s.take k pkt with
    onTime := Function.update s.onTime ((s.take k pkt).pdwrr k).site 0, links := (s.links.idle k head).1,
    curr := (s.links.idle k head).2, flwcnt := s.flwcnt - 1 }
  let u : PDWRR := if ((s.take k pkt).pdwrr k).S = level then { idled with cerprique := idled.skip } else idled
  have moved : ∃ cerprique, u = { idled with cerprique := cerprique } ∧ cerprique < s.levels.length := by
    by_cases own : ((s.take k pkt).pdwrr k).S = level
    · exact ⟨idled.skip, if_pos own, sound.skip_lt some (sub_le_self _ zero_le_one)⟩
    · exact ⟨s.cerprique, if_neg own, sound.table.pointer⟩
  have site := table.site k member
  obtain ⟨cerprique, same, pointer⟩ := moved
  obtain ⟨levels, cerprique', rearranged, sound'⟩ := table.leave (u := { idled with cerprique := cerprique }) sound.active
    atHead member queues rfl rfl rfl rfl (congrArg (Function.update s.onTime · 0) site) pointer rfl rfl rfl
  refine ⟨_, Option.bind_eq_some_iff.mpr ⟨level, entry, ?_⟩, sound', queues, rfl, rfl⟩
  rw [← rearranged, ← same]
  rfl

theorem Sound.getMaxflow (sound : Sound s ring) (atHead : s.curr = some head) : ∃ k ∈ ring, s.getMaxflow = some k := by
  refine ⟨_, sound.active.argmax_mem atHead fun i => (s.pdwrr i).bcount, ?_⟩
  rw [PDWRR.getMaxflow, atHead]
  rfl

theorem overflow_of {t : PDWRR} (atHead : s.curr = some head) (best : s.getMaxflow = some k) (queue : s.queues k = pkt :: rest)
    (left : (if ((s.take k pkt).pdwrr k).pkts = 0 then (s.take k pkt).vacate k head else some (s.take k pkt)) = some t) :
    s.overflow = some (t, pkt) := by
  refine Option.bind_eq_some_iff.mpr ⟨head, atHead, Option.bind_eq_some_iff.mpr ⟨k, best, Option.bind_eq_some_iff.mpr ⟨pkt, ?_, ?_⟩⟩⟩
  · exact congrArg List.head? queue
  · by_cases emptied : ((s.take k pkt).pdwrr k).pkts = 0
    · rw [if_pos emptied] at left
      exact (if_pos emptied).trans (Option.bind_eq_some_iff.mpr ⟨t, left, rfl⟩)
    · rw [if_neg emptied] at left
      exact (if_neg emptied).trans (Option.bind_eq_some_iff.mpr ⟨t, left, rfl⟩)

/-- The queue of an active flow got shorter, but not empty. -/
theorem Sound.shorten (sound : Sound s ring) (queue : s.queues k = pkt :: rest) (left : rest ≠ []) : Sound (s.take k pkt) ring := by
  obtain ⟨table, queues, _⟩ := sound.table.take queue
  have active := sound.active.write (k := k) (by simp [queue]) left
  rw [← queues] at active
  refine ⟨table, active, fun some => ⟨?_, (sound.ranked some).sorted, (sound.ranked some).cerprique⟩⟩
  have same : ∀ i, ((s.take k pkt).pdwrr i).S = (s.pdwrr i).S := update_kept PacketPDWRR.S _ (by rfl)
  rw [funext same]
  exact (sound.ranked some).perm

/-- One drop takes the head packet of an active flow. -/
theorem Sound.overflow (sound : Sound s ring) (positive : 0 < s.bytecnt) :
    ∃ t pkt k rest ring', s.overflow = some (t, pkt) ∧ s.queues k = pkt :: rest ∧ Sound t ring' ∧
      t.queues = Function.update s.queues k rest ∧ t.packets + 1 = s.packets ∧ Kept s t := by
  have some := sound.table.counts.active sound.active positive.ne'
  obtain ⟨head, _, atHead, _⟩ := sound.active.curr_some some
  obtain ⟨k, member, best⟩ := sound.getMaxflow atHead
  obtain ⟨pkt, rest, queue⟩ := List.exists_cons_of_ne_nil ((sound.active.member k).mp member)
  obtain ⟨_, queues, fewer, count⟩ := sound.table.take queue
  by_cases empty : rest = []
  · subst empty
    obtain ⟨t, vacated, sound', queues', kept⟩ := sound.vacate atHead queue
    have same : t.packets = (s.take k pkt).packets := by rw [packets_eq, packets_eq, queues', queues]
    exact ⟨t, pkt, k, [], _, overflow_of atHead best queue ((if_pos count).trans vacated), queue, sound', queues', by omega, kept⟩
  · have several : ((s.take k pkt).pdwrr k).pkts ≠ 0 := by
      rw [count]
      simpa using empty
    exact ⟨s.take k pkt, pkt, k, rest, ring, overflow_of atHead best queue (if_neg several), queue, sound.shorten queue empty,
      queues, fewer, rfl, rfl⟩

/-- The flow of a packet, as a number. -/
def flow (pkt : Packet) : ℕ := (which pkt).getD 0

/-- The overflow loop ends, within the limit. -/
theorem Sound.overflows {n : ℕ} (sound : Sound s ring) (fuel : s.packets ≤ n) (accounts : l.Accounts flow s.queues) :
    ∃ t dropped ring', overflows n s = some (t, dropped) ∧ Sound t ring' ∧ t.bytecnt ≤ s.blimit ∧
      Ledger.Accounts flow t.queues { l with dropped := l.dropped ++ dropped } ∧ Kept s t := by
  induction n generalizing s ring l with
  | zero =>
    have within : ¬ s.bytecnt > s.blimit := fun above => by
      obtain ⟨k, some⟩ := sound.table.counts.exists_some (by omega)
      have positive := sound.table.counts.packets_pos some
      omega
    exact ⟨s, [], ring, if_neg within, sound, not_lt.mp within, by simpa using accounts, rfl, rfl⟩
  | succ n ih =>
    by_cases above : s.bytecnt > s.blimit
    · obtain ⟨mid, pkt, k, rest, ring', taken, queue, after, queues, fewer, kept⟩ := sound.overflow (by omega)
      have left := accounts.discard queue
      rw [← queues] at left
      obtain ⟨t, dropped, ring'', rest', sound', within, accounts', kept'⟩ := ih after (by omega) left
      refine ⟨t, pkt :: dropped, ring'', ?_, sound', kept.blimit ▸ within, by simpa using accounts', kept.trans kept'⟩
      rw [PDWRR.overflows, if_pos above]
      simp [taken, rest']
    · exact ⟨s, [], ring, if_neg above, sound, not_lt.mp above, by simpa using accounts, rfl, rfl⟩

/-- What the queue is given: a source address of one of the flows, and no empty packet. -/
def Proper (pkt : Packet) : Prop := 5 ≤ pkt.saddr ∧ pkt.saddr ≤ 304 ∧ 0 < pkt.size

instance (pkt : Packet) : Decidable (Proper pkt) := inferInstanceAs (Decidable (_ ∧ _))

theorem Proper.which (proper : Proper pkt) : PDWRR.which pkt = some (flow pkt) ∧ (flow pkt = 1 ∨ flow pkt = 2 ∨ flow pkt = 3) := by
  obtain ⟨low, high, _⟩ := proper
  unfold flow PDWRR.which
  split_ifs with one two three
  · exact ⟨rfl, Or.inl rfl⟩
  · exact ⟨rfl, Or.inr (Or.inl rfl)⟩
  · exact ⟨rfl, Or.inr (Or.inr rfl)⟩
  · omega

theorem Sound.enque (sound : Sound s ring) (sqrt : Sqrt) (accounts : l.Accounts flow s.queues) (proper : Proper pkt) :
    ∃ t dropped ring', s.enque sqrt pkt = some (t, dropped) ∧ Sound t ring' ∧ t.bytecnt ≤ s.blimit ∧
      Ledger.Accounts flow t.queues (l.record [pkt] ⟨none, dropped⟩) ∧ Kept s t := by
  obtain ⟨own, known⟩ := proper.which
  obtain ⟨mid, ring', arrived, after, queues, kept⟩ := sound.arrive sqrt known proper.2.2
  have noted := accounts.arrive pkt
  rw [← queues] at noted
  obtain ⟨t, dropped, ring'', drops, sound', within, accounts', kept'⟩ := after.overflows le_rfl noted
  refine ⟨t, dropped, ring'', ?_, sound', kept.blimit ▸ within, by simpa [Ledger.record] using accounts', kept.trans kept'⟩
  exact Option.bind_eq_some_iff.mpr ⟨flow pkt, own, Option.bind_eq_some_iff.mpr ⟨mid, arrived, drops⟩⟩

end Arrivals

end Ns2.PDWRR
