import Ns2.Library.RoundRobin
import Ns2.Queue.DWRRRounds

namespace Ns2.DWRR

/-- The quantum is a variable of the class; the constructor sets it to 2000. -/
def start (buckets : ℕ+) (blimit : ℕ) (quantum : ℤ) : DWRR := { make buckets blimit with quantum := quantum }

section Deficits

variable {s mid next : DWRR} {k head : ℕ} {pkt : Packet} {v : Visit}

/-- Outside the grants no deficit grows, unless it stays at most zero. -/
structure Lowers (s next : DWRR) : Prop where
  quantum : next.quantum = s.quantum
  deficits : ∀ i, ((next.dwrr i).weight = (s.dwrr i).weight ∧ (next.dwrr i).deficitCounter ≤ (s.dwrr i).deficitCounter) ∨
    (next.dwrr i).deficitCounter ≤ 0

theorem Lowers.refl (s : DWRR) : Lowers s s := ⟨rfl, fun _ => Or.inl ⟨rfl, le_rfl⟩⟩

theorem Lowers.trans (first : Lowers s mid) (second : Lowers mid next) : Lowers s next where
  quantum := second.quantum.trans first.quantum
  deficits i := by
    rcases second.deficits i with ⟨weight, less⟩ | low
    · rcases first.deficits i with ⟨weight', less'⟩ | low'
      · exact Or.inl ⟨weight.trans weight', less.trans less'⟩
      · exact Or.inr (less.trans low')
    · exact Or.inr low

/-- One flow is written. -/
theorem lowers_update {q : PacketDWRR} (quantum : next.quantum = s.quantum) (written : next.dwrr = Function.update s.dwrr k q)
    (lower : (q.weight = (s.dwrr k).weight ∧ q.deficitCounter ≤ (s.dwrr k).deficitCounter) ∨ q.deficitCounter ≤ 0) : Lowers s next where
  quantum := quantum
  deficits i := by
    rw [written]
    by_cases own : i = k
    · subst own
      rwa [Function.update_self]
    · rw [Function.update_of_ne own]
      exact Or.inl ⟨rfl, le_rfl⟩

theorem rearr_quantum (s : DWRR) : s.rearr.quantum = s.quantum := by
  obtain ⟨_, _, same⟩ := s.rearr_eq
  rw [same]

theorem store_lowers (s : DWRR) (k : ℕ) (pkt : Packet) : Lowers s (s.store k pkt) := lowers_update rfl rfl (Or.inl ⟨rfl, le_rfl⟩)

theorem take_lowers (s : DWRR) (k : ℕ) (pkt : Packet) : Lowers s (s.take k pkt) := lowers_update rfl rfl (Or.inl ⟨rfl, le_rfl⟩)

theorem clear_lowers (s : DWRR) (k : ℕ) : Lowers s (s.clear k) := lowers_update rfl rfl (Or.inr le_rfl)

theorem pass_lowers (s : DWRR) (k : ℕ) : Lowers s (s.pass k) := lowers_update rfl rfl (Or.inl ⟨rfl, le_rfl⟩)

theorem charge_lowers (s : DWRR) (k : ℕ) (pkt : Packet) : Lowers s (s.charge k pkt) := by
  refine lowers_update rfl rfl (Or.inl ⟨rfl, ?_⟩)
  simp only
  omega

theorem activate_lowers (s : DWRR) (k : ℕ) (saddr : ℤ) : Lowers s (s.activate k saddr) := by
  unfold activate
  exact lowers_update (rearr_quantum _) (rearr_dwrr _) (Or.inr le_rfl)

theorem idle_lowers (s : DWRR) (k head : ℕ) : Lowers s (s.idle k head) := by
  unfold idle
  refine ⟨rearr_quantum _, fun i => ?_⟩
  rw [rearr_dwrr]
  exact Or.inl ⟨rfl, le_rfl⟩

theorem arrive_lowers (s : DWRR) (k : ℕ) (pkt : Packet) : Lowers s (s.arrive k pkt) := by
  unfold arrive
  dsimp only
  split_ifs with first
  · exact (store_lowers s k pkt).trans (activate_lowers _ k pkt.saddr)
  · exact store_lowers s k pkt

theorem overflow_lowers (taken : s.overflow = some (next, pkt)) : Lowers s next := by
  unfold overflow at taken
  obtain ⟨head, _, taken⟩ := Option.bind_eq_some_iff.mp taken
  obtain ⟨remq, _, taken⟩ := Option.bind_eq_some_iff.mp taken
  obtain ⟨p, _, taken⟩ := Option.bind_eq_some_iff.mp taken
  dsimp only at taken
  split_ifs at taken with last
  · cases taken
    exact (take_lowers s remq pkt).trans (idle_lowers _ remq head)
  · cases taken
    exact take_lowers s remq pkt

theorem overflows_lowers {n : ℕ} {dropped : List Packet} (taken : overflows n s = some (next, dropped)) : Lowers s next := by
  induction n generalizing s dropped with
  | zero =>
    unfold overflows at taken
    split_ifs at taken with above
    cases taken
    exact Lowers.refl _
  | succ n ih =>
    unfold overflows at taken
    split_ifs at taken with above
    · obtain ⟨⟨mid, p⟩, first, taken⟩ := Option.bind_eq_some_iff.mp taken
      obtain ⟨⟨last, rest⟩, later, taken⟩ := Option.bind_eq_some_iff.mp taken
      cases taken
      exact (overflow_lowers first).trans (ih later)
    · cases taken
      exact Lowers.refl _

theorem enque_lowers {dropped : List Packet} (taken : s.enque pkt = some (next, dropped)) : Lowers s next := by
  unfold enque at taken
  split_ifs at taken with inside
  exact (arrive_lowers s _ pkt).trans (overflows_lowers taken)

theorem send_lowers (s : DWRR) (k : ℕ) (pkt : Packet) : Lowers s (s.send k pkt) := by
  have taken := (charge_lowers s k pkt).trans (take_lowers _ k pkt)
  unfold send
  dsimp only
  split_ifs with last
  · exact (taken.trans (clear_lowers _ k)).trans (idle_lowers _ k k)
  · exact taken

/-- The flow `this` is visited, and has got its quantum. -/
def turned (s : DWRR) (this : ℕ) : DWRR :=
  { s with curr := some this, dwrr := Function.update s.dwrr this (grant s.quantum (s.dwrr this)) }

/-- A visit sends the head packet of its flow, or passes. -/
theorem visit_cases (taken : s.visit = some (next, v)) : ∃ head, (s.queues v.flow).head? = some head ∧
    ((v.pkt = some head ∧ head.size ≤ (grant s.quantum (s.dwrr v.flow)).deficitCounter ∧ next = (s.turned v.flow).send v.flow head) ∨
      v.pkt = none ∧ (grant s.quantum (s.dwrr v.flow)).deficitCounter < head.size ∧ next = (s.turned v.flow).pass v.flow) := by
  unfold visit at taken
  obtain ⟨this, _, taken⟩ := Option.bind_eq_some_iff.mp taken
  obtain ⟨head, first, taken⟩ := Option.bind_eq_some_iff.mp taken
  simp only [Function.update_self] at first taken
  have queue : (grant s.quantum (s.dwrr this)).queue = s.queues this := by
    obtain ⟨_, same⟩ := grant_eq s.quantum (s.dwrr this)
    rw [same, queues]
  rw [queue] at first
  split_ifs at taken with enough
  · cases taken
    exact ⟨head, first, Or.inl ⟨rfl, enough, rfl⟩⟩
  · cases taken
    exact ⟨head, first, Or.inr ⟨rfl, not_le.mp enough, rfl⟩⟩

end Deficits

/-- A flow of weight zero never gets a positive deficit. -/
structure Paid (quantum : ℤ) (s : DWRR) : Prop where
  quantum : s.quantum = quantum
  unpaid : ∀ i, (s.dwrr i).weight = 0 → (s.dwrr i).deficitCounter ≤ 0

section Visits

variable {s next : DWRR} {ring : List ℕ} {quantum : ℤ} {v : Visit} {i j : ℕ}

theorem Paid.lowers (paid : Paid quantum s) (lowers : Lowers s next) : Paid quantum next where
  quantum := lowers.quantum.trans paid.quantum
  unpaid i none := by
    rcases lowers.deficits i with ⟨weight, less⟩ | low
    · exact less.trans (paid.unpaid i (weight.symm.trans none))
    · exact low

theorem grant_unpaid {q : PacketDWRR} (quantum : ℤ) (none : q.weight = 0) : (grant quantum q).deficitCounter = q.deficitCounter := by
  unfold grant
  split_ifs with turn
  · rfl
  · simp [none]

theorem grant_weight (quantum : ℤ) (q : PacketDWRR) : (grant quantum q).weight = q.weight := by
  obtain ⟨_, same⟩ := grant_eq quantum q
  rw [same]

theorem Paid.turned (paid : Paid quantum s) (this : ℕ) : Paid quantum (s.turned this) where
  quantum := paid.quantum
  unpaid i none := by
    by_cases own : i = this
    · subst own
      simp only [DWRR.turned, Function.update_self, grant_weight] at none ⊢
      rw [grant_unpaid s.quantum none]
      exact paid.unpaid i none
    · simp only [DWRR.turned, Function.update_of_ne own] at none ⊢
      exact paid.unpaid i none

theorem Paid.visit (paid : Paid quantum s) (taken : s.visit = some (next, v)) : Paid quantum next := by
  obtain ⟨head, _, ⟨_, _, rfl⟩ | ⟨_, _, rfl⟩⟩ := visit_cases taken
  · exact (paid.turned v.flow).lowers (send_lowers _ v.flow head)
  · exact (paid.turned v.flow).lowers (pass_lowers _ v.flow)

/-- The visit of a flow of weight zero passes. -/
theorem Paid.visit_passes (paid : Paid quantum s) (sound : Sound s ring) (taken : s.visit = some (next, v))
    (none : (s.dwrr v.flow).weight = 0) : v.pkt = Option.none := by
  obtain ⟨head, first, ⟨_, enough, _⟩ | ⟨silent, _⟩⟩ := visit_cases taken
  · have size := sound.counts.sizes v.flow head (List.mem_of_mem_head? first)
    have low := paid.unpaid v.flow none
    rw [grant_unpaid s.quantum none] at enough
    omega
  · exact silent

theorem Paid.looped (paid : Paid quantum s) {rounds : ℕ} {pkt : Option Packet} (taken : loop rounds s = some (next, pkt)) :
    Paid quantum next := by
  induction rounds generalizing s with
  | zero =>
    cases taken
    exact paid
  | succ rounds ih =>
    unfold DWRR.loop at taken
    obtain ⟨⟨mid, v⟩, visited, taken⟩ := Option.bind_eq_some_iff.mp taken
    have onward := paid.visit visited
    cases returned : v.pkt with
    | none =>
      simp only [returned] at taken
      exact ih onward taken
    | some pkt =>
      simp only [returned] at taken
      cases taken
      exact onward

/-- Where only a flow of weight zero is backlogged, `deque` never comes to an end. -/
theorem Paid.starves (paid : Paid quantum s) (sound : Sound s ring) (some : ring ≠ [])
    (none : ∀ i, s.queues i ≠ [] → (s.dwrr i).weight = 0) (rounds : ℕ) :
    ∃ next, loop rounds s = Option.some (next, Option.none) := by
  induction rounds generalizing s ring with
  | zero => exact ⟨s, rfl⟩
  | succ rounds ih =>
    obtain ⟨mid, v, ring', taken, sound', visited⟩ := sound.visit some
    have silent := paid.visit_passes sound taken (none v.flow visited.active)
    have queues := (visited.passed silent).1
    have some' : ring' ≠ [] := List.ne_nil_of_mem ((sound'.circle.member v.flow).mpr (by rw [queues]; exact visited.active))
    obtain ⟨next, rest⟩ := ih (paid.visit taken) sound' some' fun i active => by
      rw [visited.weight]
      exact none i (queues ▸ active)
    exact ⟨next, by simp [DWRR.loop, taken, silent, rest]⟩

/-- What the flow `i` still needs before it can send its head packet, in visits. -/
def short (s : DWRR) (i : ℕ) : ℕ :=
  ((((s.queues i).head?.map Packet.size).getD 0 : ℕ) - (s.dwrr i).deficitCounter).toNat + if (s.dwrr i).turn then 1 else 0

/-- The way of the table from `cerprique` to place `j`. -/
def way (s : DWRR) (j : ℕ) : ℕ := if s.cerprique ≤ j then j - s.cerprique else j + s.weights.length - s.cerprique

theorem way_lt (bound : j < s.weights.length) : s.way j < s.weights.length := by
  unfold way
  split_ifs <;> omega

/-- A visit that passes leaves its flow less short. -/
theorem short_visited (positive : 0 < s.quantum) (taken : s.visit = some (next, v)) (silent : v.pkt = none) (queues : next.queues = s.queues)
    (weight : 0 < (s.dwrr v.flow).weight) : next.short v.flow < s.short v.flow := by
  obtain ⟨head, first, ⟨sent, _⟩ | ⟨_, less, passed⟩⟩ := visit_cases taken
  · rw [silent] at sent
    cases sent
  · have turn : (next.dwrr v.flow).turn = false := by simp [passed, pass, turned]
    have deficit : (next.dwrr v.flow).deficitCounter = (grant s.quantum (s.dwrr v.flow)).deficitCounter := by
      simp [passed, pass, turned]
    have gain : 0 < (s.dwrr v.flow).weight * s.quantum := Int.mul_pos weight positive
    unfold short
    rw [queues, first, deficit, turn, Option.map_some, Option.getD_some, if_neg Bool.false_ne_true]
    unfold grant at less ⊢
    cases was : (s.dwrr v.flow).turn with
    | true =>
      simp only [if_true]
      omega
    | false =>
      simp only [was, Bool.false_eq_true, if_false] at less ⊢
      omega

theorem short_other (taken : s.visit = some (next, v)) (silent : v.pkt = none) (queues : next.queues = s.queues) (other : i ≠ v.flow) :
    next.short i = s.short i := by
  obtain ⟨head, first, ⟨sent, _⟩ | ⟨_, _, passed⟩⟩ := visit_cases taken
  · rw [silent] at sent
    cases sent
  · have after : next.dwrr i = s.dwrr i := by
      simp [passed, pass, turned, other]
    unfold short
    rw [queues, after]

/-- A visit that passes brings the flow at place `j` nearer to a packet. -/
theorem Sound.nearer (sound : Sound s ring) (positive : 0 < s.quantum) (taken : s.visit = some (next, v)) (silent : v.pkt = none)
    (visited : Visited s next v) (active : s.queues i ≠ []) (weight : 0 < (s.dwrr i).weight)
    (place : s.weights[j]? = some (s.dwrr i).weight) :
    s.way j = 0 ∧ next.short i < s.short i ∨ next.short i ≤ s.short i ∧ next.way j < s.way j := by
  obtain ⟨queues, _, weights, cerprique⟩ := visited.passed silent
  have member := (sound.circle.member i).mpr active
  have ranked := sound.ranked (List.ne_nil_of_mem member)
  have length := ranked.perm.length_eq
  have within := ranked.cerprique
  have bound := (List.getElem?_eq_some_iff.mp place).1
  rw [List.length_map] at length
  by_cases here : s.cerprique = j
  · have chosen := visited.chosen
    rw [here, place] at chosen
    have own := sound.circle.weight_injective member ((sound.circle.member v.flow).mpr visited.active) (Option.some.inj chosen)
    subst own
    refine Or.inl ⟨?_, short_visited positive taken silent queues weight⟩
    simp [way, here]
  · refine Or.inr ⟨?_, ?_⟩
    · by_cases own : i = v.flow
      · subst own
        exact (short_visited positive taken silent queues weight).le
      · exact (short_other taken silent queues own).le
    · have count := sound.circle.flwcnt
      unfold way
      rw [weights, cerprique]
      split_ifs <;> omega

/-- Where a flow of positive weight is backlogged, `deque` returns the head packet of some flow. -/
theorem Sound.returns (sound : Sound s ring) (positive : 0 < s.quantum) (active : s.queues i ≠ []) (weight : 0 < (s.dwrr i).weight)
    (place : s.weights[j]? = some (s.dwrr i).weight) :
    ∃ rounds next pkt, loop rounds s = some (next, some pkt) ∧ ∃ k rest, s.queues k = pkt :: rest := by
  induction measure : s.weights.length * s.short i + s.way j using Nat.strong_induction_on generalizing s ring with
  | _ n ih =>
    have member := (sound.circle.member i).mpr active
    obtain ⟨mid, v, ring', taken, sound', visited⟩ := sound.visit (List.ne_nil_of_mem member)
    cases returned : v.pkt with
    | some pkt =>
      obtain ⟨rest, queue, _⟩ := visited.sent pkt returned
      exact ⟨1, mid, pkt, by simp [loop, taken, returned], v.flow, rest, queue⟩
    | none =>
      obtain ⟨queues, _, weights, _⟩ := visited.passed returned
      have nearer := sound.nearer positive taken returned visited active weight place
      have bound := (List.getElem?_eq_some_iff.mp place).1
      have within : mid.way j < s.weights.length := weights ▸ way_lt (weights.symm ▸ bound)
      have less := RoundRobin.lap_lt within nearer
      rw [measure, ← weights] at less
      have quantum : mid.quantum = s.quantum := by
        obtain ⟨head, _, ⟨sent, _⟩ | ⟨_, _, passed⟩⟩ := visit_cases taken
        · rw [returned] at sent
          cases sent
        · rw [passed]
          rfl
      rw [← queues] at active ⊢
      rw [← visited.weight] at weight place
      obtain ⟨rounds, next, pkt, rest, found⟩ := ih _ less sound' (quantum ▸ positive) active weight (weights ▸ place) rfl
      exact ⟨rounds + 1, next, pkt, by simp [loop, taken, returned, rest], found⟩

end Visits

section Runs

variable {buckets : ℕ+} {blimit : ℕ} {quantum : ℤ} {s : DWRR} {calls : List Call} {outs : List (Outcome Packet)}

theorem start_holds (buckets : ℕ+) (blimit : ℕ) (quantum : ℤ) : Holds buckets blimit (start buckets blimit quantum) [] Ledger.empty := by
  have made := make_holds buckets blimit
  exact ⟨⟨counts_congr made.sound.counts rfl rfl (fun _ => rfl) (fun _ => rfl) rfl rfl,
    made.sound.circle.congr rfl rfl rfl rfl (fun _ => Iff.rfl) fun _ _ => rfl, fun some => absurd rfl some⟩, rfl, rfl, made.limit,
    made.accounts⟩

theorem Paid.step {next : DWRR} {call : Call} {out : Outcome Packet} (paid : Paid quantum s) (taken : machine.step s call = some (next, out)) :
    Paid quantum next := by
  cases call with
  | enque pkt =>
    obtain ⟨⟨last, dropped⟩, enqued, same⟩ := Option.map_eq_some_iff.mp taken
    cases same
    exact paid.lowers (enque_lowers enqued)
  | deque rounds =>
    obtain ⟨⟨last, pkt⟩, dequed, same⟩ := Option.map_eq_some_iff.mp taken
    cases same
    unfold deque at dequed
    split_ifs at dequed with empty
    · cases dequed
      exact paid
    · exact paid.looped dequed

theorem run_paid (proper : ∀ call ∈ calls, call.Proper) (reached : machine.run (start buckets blimit quantum) calls = some (s, outs)) :
    (∃ ring l, Holds buckets blimit s ring l) ∧ Paid quantum s := by
  refine Machine.run_kept (P := fun _ call => call.Proper) (I := fun s => (∃ ring l, Holds buckets blimit s ring l) ∧ Paid quantum s)
    ?_ ⟨⟨[], Ledger.empty, start_holds buckets blimit quantum⟩, rfl, fun _ _ => le_rfl⟩ (Machine.along_of_forall proper) reached
  rintro s call next out ⟨⟨ring, l, holds⟩, paid⟩ proper taken
  obtain ⟨next', out', ring', taken', after⟩ := holds.step call proper
  cases Option.some.inj (taken.symm.trans taken')
  exact ⟨⟨ring', _, after⟩, paid.step taken⟩

def reachedBy (calls : List Call) : DWRR := ((machine.run (start 32 20000 2000) calls).map Prod.fst).getD (start 32 20000 2000)

theorem reachedBy_run (answers : (machine.run (start 32 20000 2000) calls).map Prod.snd = some outs) :
    machine.run (start 32 20000 2000) calls = some (reachedBy calls, outs) :=
  Machine.eq_some_of_answer _ answers

/-- One packet from the node with address 0. -/
def zeroCalls : List Call := [.enque (packet 1 0 100)]

theorem zeroCalls_run : machine.run (start 32 20000 2000) zeroCalls = some (reachedBy zeroCalls, [⟨none, []⟩]) :=
  reachedBy_run (by decide +kernel)

/-- A packet of another flow is behind it. -/
def twoCalls : List Call := zeroCalls ++ [.enque (packet 2 1 100)]

end Runs

end Ns2.DWRR
