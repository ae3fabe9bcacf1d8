import Ns2.Queue.PDWRRAccounts

namespace Ns2.PDWRR

open PacketPDWRR (Sane grant_eq)

section Visits

variable {s t : PDWRR} {ring l r : List ℕ} {k : ℕ} {pkt : Packet} {rest : PacketQueue}

/-- The circle is read from another flow on. -/
theorem Sound.turn (sound : Sound s (l ++ r)) : Sound { s with curr := (r ++ l).head? } (r ++ l) where
  table := by
    have table := sound.table.subset fun _ member => List.perm_append_comm.subset member
    exact ⟨table.counts, table.pointer, table.quantum, table.site, table.onTime, table.sane⟩
  active := sound.active.turn
  ranked some := by
    have ranked := sound.ranked fun none => some (by simp_all)
    refine ⟨ranked.perm.trans (List.perm_append_comm.map _), ranked.sorted, ?_⟩
    rw [List.length_append, add_comm, ← List.length_append]
    exact ranked.cerprique

/-- A flow that its service has emptied leaves the circle. -/
theorem Sound.retire (sound : Sound s ring) (atHead : s.curr = some k) (queue : s.queues k = [pkt]) (site : ℕ) : ∃ t,
    PDWRR.retire { s.take k pkt with predequeSite := site } k = some t ∧ Sound t (ring.erase k) ∧
      t.queues = Function.update s.queues k [] ∧ Kept s t := by
  have member : k ∈ ring := (sound.active.member k).mpr (by simp [queue])
  obtain ⟨table, queues, _⟩ := sound.table.take queue
  let sent : PDWRR := s.take k pkt
  let q : PacketPDWRR := { sent.pdwrr k with turn := false, deficitCounter := 0 }
  have sane := table.sane k
  have own := table.site k member
  have cleared : Table (sent.setFlow k q) ring :=
    table.setFlow rfl rfl rfl (fun _ => own) ⟨sane.wt, le_refl 0, sane.pcount, sane.weight⟩
  have queues' : (sent.setFlow k q).queues = Function.update s.queues k [] := (queues_setFlow (q := q) rfl).trans queues
  have pointer := sound.skip_lt (List.ne_nil_of_mem member) (sub_le_self s.flwcnt zero_le_one)
  let u : PDWRR := { sent.setFlow k q with
    predequeSite := site, onTime := Function.update s.onTime (sent.pdwrr k).site 0, links := (s.links.idle k k).1,
    curr := (s.links.idle k k).2, flwcnt := s.flwcnt - 1,
    cerprique := if ((s.cerprique + 1 : ℕ) : ℤ) ≥ s.flwcnt - 1 then 0 else s.cerprique + 1 }
  obtain ⟨levels, cerprique, rearranged, sound'⟩ := cleared.leave (u := u) sound.active atHead member queues' rfl rfl rfl rfl
    (congrArg (Function.update s.onTime · 0) own) pointer rfl rfl rfl
  exact ⟨_, rearranged, sound', queues', rfl, rfl⟩

/-- The flow at `curr` sends its head packet. -/
theorem Sound.send (sound : Sound s ring) (atHead : s.curr = some k) (queue : s.queues k = pkt :: rest)
    (enough : (pkt.size : ℤ) ≤ (s.pdwrr k).deficitCounter) :
    ∃ t ring', s.send k pkt = some t ∧ Sound t ring' ∧ t.queues = Function.update s.queues k rest ∧ Kept s t := by
  have sane := sound.table.sane k
  let charged : PDWRR := s.setFlow k { s.pdwrr k with deficitCounter := (s.pdwrr k).deficitCounter - pkt.size }
  have paid : Sound charged ring := sound.setFlow rfl rfl rfl rfl rfl ⟨sane.wt, sub_nonneg.mpr enough, sane.pcount, sane.weight⟩
  have same : charged.queues = s.queues := queues_setFlow rfl
  rw [← same] at queue ⊢
  obtain ⟨_, queues, _, count⟩ := paid.table.take queue
  by_cases empty : rest = []
  · subst empty
    obtain ⟨t, retired, sound', queues', kept⟩ := paid.retire atHead queue (s.pdwrr k).site
    exact ⟨t, _, (if_pos count).trans retired, sound', queues', kept.blimit, kept.clock⟩
  · have several : ((charged.take k pkt).pdwrr k).pkts ≠ 0 := by
      rw [count]
      simpa using empty
    have left := paid.shorten queue empty
    refine ⟨{ charged.take k pkt with predequeSite := (s.pdwrr k).site }, ring, if_neg several, ⟨?_, left.active, fun some => ?_⟩,
      queues, rfl, rfl⟩
    · have table := left.table
      exact ⟨table.counts, table.pointer, table.quantum, table.site, table.onTime, table.sane⟩
    · have ranked := left.ranked some
      exact ⟨ranked.perm, ranked.sorted, ranked.cerprique⟩

/-- The turn of a flow ends without a packet. -/
theorem Sound.pass (sound : Sound s ring) (member : k ∈ ring) : Sound (s.pass k) ring := by
  have sane := sound.table.sane k
  have some := List.ne_nil_of_mem member
  have ended : Sound (s.setFlow k { s.pdwrr k with turn := false }) ring :=
    sound.setFlow rfl rfl rfl rfl rfl ⟨sane.wt, sane.deficit, sane.pcount, sane.weight⟩
  have pointer := sound.skip_lt some le_rfl
  have length : s.levels.length = ring.length := by rw [(sound.ranked some).perm.length_eq, List.length_map]
  have table := ended.table
  refine ⟨⟨table.counts, pointer, table.quantum, table.site, fun i inside => ?_, table.sane⟩, ended.active, fun some =>
    ⟨(ended.ranked some).perm, (ended.ranked some).sorted, pointer.trans_eq length⟩⟩
  have own := sound.table.site k member
  change Function.update s.onTime (s.pdwrr k).site s.clock i ≤ s.clock
  rw [own]
  by_cases same : i = k
  · rw [same, Function.update_self]
  · rw [Function.update_of_ne same]
    exact table.onTime i inside

/-- What a flow lacks for its head packet, and 1 for a turn that has begun. -/
def lack (q : PacketPDWRR) : ℕ :=
  match q.queue with
  | [] => 0
  | pkt :: _ => ((pkt.size : ℤ) - q.deficitCounter).toNat + q.turn.toNat

def shortfall (s : PDWRR) : ℕ := ∑ i ∈ Finset.range 4, lack (s.pdwrr i)

theorem lack_eq {q : PacketPDWRR} (queue : q.queue = pkt :: rest) :
    lack q = ((pkt.size : ℤ) - q.deficitCounter).toNat + q.turn.toNat := by
  unfold lack
  rw [queue]

theorem lack_congr {p q : PacketPDWRR} (queue : p.queue = q.queue) (deficit : p.deficitCounter = q.deficitCounter)
    (turn : p.turn = q.turn) : lack p = lack q := by
  unfold lack
  rw [queue, deficit, turn]

/-- What becomes of the queues, by the packet that is returned. -/
def Served (s t : PDWRR) : Option Packet → Prop
  | none => t.queues = s.queues
  | some pkt => ∃ k rest, s.queues k = pkt :: rest ∧ t.queues = Function.update s.queues k rest

/-- A visit without a packet has brought some packet nearer to its service. -/
theorem Sound.visit (sound : Sound s ring) (some : ring ≠ []) : ∃ t pkt ring', s.visit = Option.some (t, pkt) ∧ Sound t ring' ∧
    Kept s t ∧ Served s t pkt ∧ (pkt = none → shortfall t < shortfall s) := by
  obtain ⟨mid, this, found, member, after, same⟩ := sound.moveMaxS some
  obtain ⟨l, r, rfl⟩ := List.append_of_mem member
  obtain ⟨pkt, rest, queue⟩ := List.exists_cons_of_ne_nil ((after.active.member this).mp member)
  have sane := after.table.sane this
  have stored : 0 < (mid.pdwrr this).pkts := by
    rw [after.table.counts.counted, queue]
    exact Int.natCast_pos.mpr (Nat.succ_pos _)
  obtain ⟨deficit, granted, least, more⟩ := grant_eq after.table.quantum sane stored
  let q : PacketPDWRR := { mid.pdwrr this with deficitCounter := deficit, turn := true }
  let u : PDWRR := { mid.setFlow this q with curr := Option.some this }
  have started : Sound (mid.setFlow this q) (l ++ this :: r) :=
    after.setFlow rfl rfl rfl rfl rfl ⟨sane.wt, sane.deficit.trans least, sane.pcount, sane.weight⟩
  have ready : Sound u (this :: r ++ l) := started.turn
  have queues : u.queues = s.queues := (queues_setFlow (q := q) rfl).trans same.queues
  have own : u.pdwrr this = q := Function.update_self ..
  have queue' : u.queues this = pkt :: rest := by rw [queues, ← same.queues, queue]
  have start : s.visit = if (u.pdwrr this).deficitCounter ≥ (pkt.size : ℤ) then (u.send this pkt).bind fun t => Option.some (t, Option.some pkt)
      else Option.some (u.pass this, none) := by
    have head : (u.pdwrr this).queue.head? = Option.some pkt := congrArg List.head? queue'
    unfold PDWRR.visit
    simp only [found, Option.bind_eq_bind, Option.bind_some, granted]
    change (u.pdwrr this).queue.head?.bind _ = _
    rw [head]
    rfl
  by_cases enough : (u.pdwrr this).deficitCounter ≥ (pkt.size : ℤ)
  · obtain ⟨t, ring', sent, sound', left, kept⟩ := ready.send rfl queue' enough
    refine ⟨t, Option.some pkt, ring', ?_, sound', ⟨kept.blimit.trans same.blimit, kept.clock.trans same.clock⟩, ?_, nofun⟩
    · rw [start, if_pos enough, sent]
      rfl
    · exact ⟨this, rest, by rw [← queues, queue'], by rw [left, queues]⟩
  · have passed : (u.pass this).queues = s.queues :=
      (queues_setFlow (s := u) (q := { u.pdwrr this with turn := false }) rfl).trans queues
    refine ⟨u.pass this, none, _, start.trans (if_neg enough), ready.pass (by simp), ⟨same.blimit, same.clock⟩, passed, fun _ => ?_⟩
    have inside := after.table.counts.inside this (by rw [queue]; exact List.cons_ne_nil pkt rest)
    have others : ∀ i, i ≠ this → lack ((u.pass this).pdwrr i) = lack (s.pdwrr i) := fun i other => by
      have kept : (u.pass this).pdwrr i = mid.pdwrr i :=
        (Function.update_of_ne other ..).trans (Function.update_of_ne other ..)
      rw [kept]
      exact lack_congr (congrFun same.queues i) (same.deficit i) (same.turn i)
    have less : lack ((u.pass this).pdwrr this) < lack (s.pdwrr this) := by
      have before : lack (s.pdwrr this) = lack (mid.pdwrr this) :=
        (lack_congr (congrFun same.queues this) (same.deficit this) (same.turn this)).symm
      have ended : (u.pass this).pdwrr this = { u.pdwrr this with turn := false } := Function.update_self ..
      have short : deficit < (pkt.size : ℤ) := by simpa [own, q] using enough
      have after : lack ((u.pass this).pdwrr this) = ((pkt.size : ℤ) - deficit).toNat + false.toNat := by
        rw [ended, own]
        exact lack_eq (q := { q with turn := false }) queue
      rw [before, after, lack_eq queue]
      cases turn : (mid.pdwrr this).turn with
      | true =>
        simp only [Bool.toNat_true, Bool.toNat_false]
        omega
      | false =>
        have grown := more turn
        simp only [Bool.toNat_false]
        omega
    exact Finset.sum_lt_sum (fun i _ => by
      by_cases same : i = this
      · exact same ▸ less.le
      · exact (others i same).le) ⟨this, Finset.mem_range.mpr inside, less⟩

theorem Served.of_queues {mid : PDWRR} (same : mid.queues = s.queues) {pkt : Option Packet} (served : Served mid t pkt) :
    Served s t pkt := by
  cases pkt with
  | none => exact served.trans same
  | some pkt =>
    unfold Served at served ⊢
    rwa [same] at served

/-- The loop, wherever it is stopped. It has returned a packet when it was given the turns for it. -/
theorem Sound.loop (sound : Sound s ring) (some : ring ≠ []) (rounds : ℕ) : ∃ t pkt ring',
    loop rounds s = Option.some (t, pkt) ∧ Sound t ring' ∧ Kept s t ∧ Served s t pkt ∧
      (shortfall s < rounds → pkt.isSome = true) := by
  induction rounds generalizing s ring with
  | zero => exact ⟨s, none, ring, rfl, sound, ⟨rfl, rfl⟩, rfl, fun enough => absurd enough (Nat.not_lt_zero _)⟩
  | succ rounds ih =>
    obtain ⟨mid, pkt, ring', visited, after, kept, served, nearer⟩ := sound.visit some
    unfold PDWRR.loop
    simp only [visited, Option.bind_eq_bind, Option.bind_some]
    cases pkt with
    | some pkt => exact ⟨mid, Option.some pkt, ring', rfl, after, kept, served, fun _ => rfl⟩
    | none =>
      have left : ring' ≠ [] := by
        obtain ⟨k, member⟩ := List.exists_mem_of_ne_nil ring some
        refine List.ne_nil_of_mem ((after.active.member k).mpr ?_)
        rw [show mid.queues = s.queues from served]
        exact (sound.active.member k).mp member
      obtain ⟨t, pkt, ring'', rest, sound', kept', served', returned⟩ := ih after left
      have less := nearer rfl
      exact ⟨t, pkt, ring'', rest, sound', kept.trans kept', served'.of_queues served, fun enough => returned (by omega)⟩

/-- More turns change nothing when a packet is returned. -/
theorem loop_more {m n : ℕ} (returned : loop n s = some (t, some pkt)) (more : n ≤ m) : loop m s = some (t, some pkt) := by
  induction n generalizing s m with
  | zero => cases Option.some.inj returned
  | succ n ih =>
    obtain ⟨m, rfl⟩ := Nat.exists_eq_succ_of_ne_zero (n := m) (by omega)
    obtain ⟨⟨mid, out⟩, visited, rest⟩ := Option.bind_eq_some_iff.mp returned
    unfold PDWRR.loop
    simp only [visited, Option.bind_eq_bind, Option.bind_some]
    cases out with
    | some pkt => exact rest
    | none => exact ih rest (by omega)

end Visits

section Runs

variable {blimit : ℕ} {s : PDWRR} {ring : List ℕ} {l : Ledger Packet} {clock : ℚ}

/-- A state between the turns of the loops, with what has become of the packets. -/
structure Holds (blimit : ℕ) (s : PDWRR) (ring : List ℕ) (l : Ledger Packet) : Prop where
  sound : Sound s ring
  room : s.blimit = blimit
  limit : s.bytecnt ≤ blimit
  accounts : l.Accounts flow s.queues

theorem make_holds (blimit : ℕ) (levels : Fin 16 → ℚ) (clock : ℚ) : Holds blimit (make blimit levels clock) [] Ledger.empty where
  sound := by
    have counts : Counts (make blimit levels clock) := (@counts_of (make blimit levels clock) 0 (tally_empty 4)).1
    refine ⟨⟨counts, ?_, (by decide : (1 : ℤ) ≤ 128), fun i member => absurd member List.not_mem_nil,
      fun i member => absurd member List.not_mem_nil, fun i => PacketPDWRR.make_sane⟩, activeRing_empty _, fun some =>
      absurd rfl some⟩
    rw [make, List.length_ofFn]
    exact Nat.succ_pos 15
  room := rfl
  limit := Int.natCast_nonneg blimit
  accounts := Ledger.Accounts.empty _

theorem Sound.wait (sound : Sound s ring) (later : s.clock ≤ clock) : Sound { s with clock := clock } ring where
  table := by
    have table := sound.table
    exact ⟨table.counts, table.pointer, table.quantum, table.site, fun i member => (table.onTime i member).trans later, table.sane⟩
  active := sound.active
  ranked some := ⟨(sound.ranked some).perm, (sound.ranked some).sorted, (sound.ranked some).cerprique⟩

theorem Holds.wait (holds : Holds blimit s ring l) (later : s.clock ≤ clock) : Holds blimit { s with clock := clock } ring l :=
  ⟨holds.sound.wait later, holds.room, holds.limit, holds.accounts⟩

theorem Holds.enque (holds : Holds blimit s ring l) (sqrt : Sqrt) {pkt : Packet} (proper : Proper pkt) : ∃ t dropped ring',
    s.enque sqrt pkt = some (t, dropped) ∧ Holds blimit t ring' (l.record [pkt] ⟨none, dropped⟩) ∧ t.clock = s.clock := by
  obtain ⟨t, dropped, ring', taken, sound, limit, accounts, kept⟩ := holds.sound.enque sqrt holds.accounts proper
  exact ⟨t, dropped, ring', taken, ⟨sound, kept.blimit.trans holds.room, holds.room ▸ limit, accounts⟩, kept.clock⟩

theorem Served.accounts {t : PDWRR} {pkt : Option Packet} (served : Served s t pkt) (accounts : l.Accounts flow s.queues) :
    Ledger.Accounts flow t.queues (l.record [] ⟨pkt, []⟩) := by
  cases pkt with
  | none =>
    rw [show t.queues = s.queues from served]
    simpa [Ledger.record] using accounts
  | some pkt =>
    obtain ⟨k, rest, queue, queues⟩ := served
    rw [queues]
    simpa [Ledger.record] using accounts.release queue

theorem Served.bytes_le {t : PDWRR} {pkt : Option Packet} (served : Served s t pkt) (i : ℕ) :
    bytes (t.queues i) ≤ bytes (s.queues i) := by
  cases pkt with
  | none => rw [show t.queues = s.queues from served]
  | some pkt =>
    obtain ⟨k, rest, queue, queues⟩ := served
    rw [queues]
    by_cases own : i = k
    · subst own
      rw [Function.update_self, queue, bytes_cons]
      omega
    · rw [Function.update_of_ne own]

theorem Holds.deque (holds : Holds blimit s ring l) (rounds : ℕ) : ∃ t pkt ring', s.deque rounds = some (t, pkt) ∧
    Holds blimit t ring' (l.record [] ⟨pkt, []⟩) ∧ t.clock = s.clock := by
  by_cases empty : s.bytecnt = 0
  · exact ⟨s, none, ring, if_pos empty, by simpa [Ledger.record] using holds, rfl⟩
  · have some := holds.sound.table.counts.active holds.sound.active empty
    obtain ⟨t, pkt, ring', taken, sound, kept, served, _⟩ := holds.sound.loop some rounds
    have less : t.bytecnt ≤ s.bytecnt := by
      rw [sound.table.counts.total_eq, holds.sound.table.counts.total_eq]
      exact Finset.sum_le_sum fun i _ => served.bytes_le i
    exact ⟨t, pkt, ring', (if_neg empty).trans taken, ⟨sound, kept.blimit.trans holds.room, less.trans holds.limit,
      served.accounts holds.accounts⟩, kept.clock⟩

def Call.Proper : Call → Prop
  | .enque pkt _ => PDWRR.Proper pkt
  | .deque _ _ => True

instance : ∀ call : Call, Decidable call.Proper
  | .enque pkt _ => inferInstanceAs (Decidable (PDWRR.Proper pkt))
  | .deque _ _ => isTrue trivial

theorem Holds.step (holds : Holds blimit s ring l) (sqrt : Sqrt) {call : Call} (proper : call.Proper) (later : s.clock ≤ call.clock) :
    ∃ t out ring', s.step sqrt call = some (t, out) ∧ Holds blimit t ring' (l.record call.arrivals out) ∧ t.clock = call.clock := by
  cases call with
  | enque pkt clock =>
    obtain ⟨t, dropped, ring', taken, after, kept⟩ := (holds.wait later).enque sqrt proper
    exact ⟨t, ⟨none, dropped⟩, ring', Option.map_eq_some_iff.mpr ⟨(t, dropped), taken, rfl⟩, after, kept⟩
  | deque rounds clock =>
    obtain ⟨t, pkt, ring', taken, after, kept⟩ := (holds.wait later).deque rounds
    exact ⟨t, ⟨pkt, []⟩, ring', Option.map_eq_some_iff.mpr ⟨(t, pkt), taken, rfl⟩, after, kept⟩

/-- A state `s` that the calls reach, with the answers to them. A packet is
there for the asking: from some number of turns on `deque` returns, and always
the same. -/
structure Correct (sqrt : Sqrt) (blimit : ℕ) (calls : List Call) (s : PDWRR) (outs : List (Outcome Packet)) : Prop where
  bytecnt : s.bytecnt = ∑ i ∈ Finset.range 4, bytes (s.queues i)
  pkts : ∀ i, (s.pdwrr i).pkts = (s.queues i).length
  bcount : ∀ i, (s.pdwrr i).bcount = bytes (s.queues i)
  ring : ∃ ring, s.links.Ring s.curr ring ∧ (∀ i, i ∈ ring ↔ s.queues i ≠ []) ∧ s.flwcnt = ring.length ∧
    (0 < s.flwcnt → s.levels.Perm (ring.map fun i => (s.pdwrr i).S) ∧ s.levels.Pairwise (· ≥ ·) ∧ s.cerprique < s.flwcnt)
  limit : s.bytecnt ≤ blimit
  accounts : (Ledger.ofRun Call.arrivals calls outs).Accounts flow s.queues
  served : 0 < s.bytecnt → ∀ clock ≥ s.clock, ∃ turns t k pkt rest, s.queues k = pkt :: rest ∧
    t.queues = Function.update s.queues k rest ∧ ∀ rounds ≥ turns, s.step sqrt (.deque rounds clock) = some (t, ⟨some pkt, []⟩)

theorem Holds.served (holds : Holds blimit s ring l) (sqrt : Sqrt) (positive : 0 < s.bytecnt) (later : clock ≥ s.clock) :
    ∃ turns t k pkt rest, s.queues k = pkt :: rest ∧ t.queues = Function.update s.queues k rest ∧
      ∀ rounds ≥ turns, s.step sqrt (.deque rounds clock) = some (t, ⟨some pkt, []⟩) := by
  let u : PDWRR := { s with clock := clock }
  have waited : Holds blimit u ring l := holds.wait later
  have some := waited.sound.table.counts.active waited.sound.active positive.ne'
  obtain ⟨t, out, _, taken, _, _, served, returned⟩ := waited.sound.loop some (shortfall u + 1)
  obtain ⟨pkt, rfl⟩ := Option.isSome_iff_exists.mp (returned (Nat.lt_succ_self _))
  obtain ⟨k, rest, queue, queues⟩ := served
  refine ⟨shortfall u + 1, t, k, pkt, rest, queue, queues, fun rounds enough => ?_⟩
  have all : u.deque rounds = Option.some (t, Option.some pkt) := (if_neg positive.ne').trans (loop_more taken enough)
  exact Option.map_eq_some_iff.mpr ⟨(t, Option.some pkt), all, rfl⟩

theorem run_holds (sqrt : Sqrt) (blimit : ℕ) (levels : Fin 16 → ℚ) (start : ℚ) {calls : List Call}
    (proper : ∀ call ∈ calls, call.Proper) (ordered : (start :: calls.map Call.clock).Pairwise (· ≤ ·)) : ∃ s outs ring,
    (machine sqrt).run (make blimit levels start) calls = some (s, outs) ∧
      Holds blimit s ring (Ledger.ofRun Call.arrivals calls outs) := by
  have kept : ∀ t s l call, (s.clock = t ∧ ∃ ring, Holds blimit s ring l) → call.Proper → t ≤ call.clock → ∃ next out,
      (machine sqrt).step s call = some (next, out) ∧ next.clock = call.clock ∧
        ∃ ring, Holds blimit next ring (l.record call.arrivals out) := by
    rintro t s l call ⟨rfl, ring, holds⟩ proper later
    obtain ⟨next, out, ring', taken, after, clock⟩ := holds.step sqrt proper later
    exact ⟨next, out, taken, clock, ring', after⟩
  obtain ⟨s, _, outs, run, _, ring, holds⟩ := Ledger.run_timed kept ⟨rfl, [], make_holds blimit levels start⟩ proper ordered
  exact ⟨s, outs, ring, run, holds⟩

/-- Whatever the table was allocated with: no call meets a null `curr`, a read
outside the levels, a division by 0 or a search without end, for a run is `none` then. -/
theorem weighted_queue (sqrt : Sqrt) (blimit : ℕ) (levels : Fin 16 → ℚ) (start : ℚ) (calls : List Call)
    (proper : ∀ call ∈ calls, call.Proper) (ordered : (start :: calls.map Call.clock).Pairwise (· ≤ ·)) : ∃ s outs,
    (machine sqrt).run (make blimit levels start) calls = some (s, outs) ∧ Correct sqrt blimit calls s outs := by
  obtain ⟨s, outs, ring, run, holds⟩ := run_holds sqrt blimit levels start proper ordered
  have counts := holds.sound.table.counts
  have active := holds.sound.active
  refine ⟨s, outs, run, counts.total_eq, counts.counted, counts.sized, ⟨ring, active.linked, active.member, active.flwcnt_eq,
    fun positive => ?_⟩, holds.limit, holds.accounts, fun positive clock later => holds.served sqrt positive later⟩
  have some : ring ≠ [] := by
    rintro rfl
    rw [active.flwcnt_eq] at positive
    exact lt_irrefl 0 positive
  have ranked := holds.sound.ranked some
  exact ⟨ranked.perm, ranked.sorted, by rw [active.flwcnt_eq]; exact_mod_cast ranked.cerprique⟩

end Runs

def packet (uid : ℕ) (saddr : ℤ) (size : ℕ) : Packet := ⟨uid, saddr, 0, size⟩

/-- The root of a square of a fraction, and what is next below for others. -/
def root : Sqrt := ⟨fun x => (Nat.sqrt x.num.toNat : ℚ) / Nat.sqrt x.den, fun _ => by positivity⟩

/-- Three flows, an overflow, and turns that end without a packet. -/
def sampleCalls : List Call :=
  [.enque (packet 1 5 300) 0, .enque (packet 2 110 900) (1 / 2), .enque (packet 3 210 700) 1, .enque (packet 4 7 5000) 2,
    .deque 90 3, .deque 90 4, .enque (packet 5 304 200) 5, .deque 90 6, .deque 90 7, .deque 90 8]

theorem weighted_queue_sample : ∃ s outs, (machine root).run (make 2000 (fun _ => 0) 0) sampleCalls = some (s, outs) ∧
    Correct root 2000 sampleCalls s outs :=
  weighted_queue root 2000 (fun _ => 0) 0 sampleCalls (by decide) (by decide +kernel)

end Ns2.PDWRR
