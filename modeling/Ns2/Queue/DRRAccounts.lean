import Ns2.Queue.DRR

namespace Ns2.DRR

def queues (s : DRR) (i : ℕ) : PacketQueue := (s.drr i).queue

/-- The counters of the flows and their totals. -/
abbrev Counts (s : DRR) : Prop :=
  FlowTally s.buckets s.queues (fun i => (s.drr i).pkts) (fun i => (s.drr i).bcount) s.pktcnt s.bytecnt

/-- The state between two events; `ring` is the circle of the active flows from `curr` on. -/
structure Sound (quantum : ℤ) (maxpkt : ℕ) (s : DRR) (ring : List ℕ) : Prop where
  counts : Counts s
  active : ActiveRing s.links s.curr s.flwcnt s.queues ring
  most : ∀ i, ∀ pkt ∈ s.queues i, pkt.size ≤ maxpkt
  quantum : s.quantum = quantum

/-- No turn and no deficit changes. -/
structure Unturned (s next : DRR) : Prop where
  quantum : next.quantum = s.quantum
  buckets : next.buckets = s.buckets
  turn : ∀ i, (next.drr i).turn = (s.drr i).turn
  deficit : ∀ i, (next.drr i).deficitCounter = (s.drr i).deficitCounter

theorem Unturned.trans {s mid next : DRR} (first : Unturned s mid) (second : Unturned mid next) : Unturned s next where
  quantum := second.quantum.trans first.quantum
  buckets := second.buckets.trans first.buckets
  turn i := (second.turn i).trans (first.turn i)
  deficit i := (second.deficit i).trans (first.deficit i)

section Arrivals

variable {s next : DRR} {ring : List ℕ} {k head : ℕ} {pkt : Packet} {rest : PacketQueue} {quantum : ℤ} {maxpkt : ℕ}

theorem store_unturned (s : DRR) (k : ℕ) (pkt : Packet) : Unturned s (s.store k pkt) :=
  ⟨rfl, rfl, update_kept PacketDRR.turn _ (by rfl), update_kept PacketDRR.deficitCounter _ (by rfl)⟩

theorem take_unturned (s : DRR) (k : ℕ) (pkt : Packet) : Unturned s (s.take k pkt) :=
  ⟨rfl, rfl, update_kept PacketDRR.turn _ (by rfl), update_kept PacketDRR.deficitCounter _ (by rfl)⟩

theorem queues_store (s : DRR) (k : ℕ) (pkt : Packet) : (s.store k pkt).queues = Function.update s.queues k (s.queues k ++ [pkt]) :=
  funext fun i => Function.apply_update (fun _ => PacketDRR.queue) s.drr k _ i

theorem queues_take (s : DRR) (k : ℕ) (pkt : Packet) : (s.take k pkt).queues = Function.update s.queues k (s.queues k).tail :=
  funext fun i => Function.apply_update (fun _ => PacketDRR.queue) s.drr k _ i

theorem counts_store (counts : Counts s) (within : k < s.buckets) (size : 0 < pkt.size) : Counts (s.store k pkt) := by
  have pkts : (fun i => ((s.store k pkt).drr i).pkts) = Function.update (fun i => (s.drr i).pkts) k ((s.drr k).pkts + 1) :=
    funext fun i => Function.apply_update (fun _ => PacketDRR.pkts) s.drr k _ i
  have bcount : (fun i => ((s.store k pkt).drr i).bcount) = Function.update (fun i => (s.drr i).bcount) k ((s.drr k).bcount + pkt.size) :=
    funext fun i => Function.apply_update (fun _ => PacketDRR.bcount) s.drr k _ i
  unfold Counts
  rw [queues_store, pkts, bcount]
  exact counts.push within size

theorem counts_take (counts : Counts s) (queue : s.queues k = pkt :: rest) : Counts (s.take k pkt) := by
  have pkts : (fun i => ((s.take k pkt).drr i).pkts) = Function.update (fun i => (s.drr i).pkts) k ((s.drr k).pkts - 1) :=
    funext fun i => Function.apply_update (fun _ => PacketDRR.pkts) s.drr k _ i
  have bcount : (fun i => ((s.take k pkt).drr i).bcount) = Function.update (fun i => (s.drr i).bcount) k ((s.drr k).bcount - pkt.size) :=
    funext fun i => Function.apply_update (fun _ => PacketDRR.bcount) s.drr k _ i
  unfold Counts
  rw [queues_take, queue, pkts, bcount]
  exact counts.pop queue

/-- Only the queues, their counters and the totals matter. -/
theorem counts_congr {t : DRR} (counts : Counts s) (buckets : t.buckets = s.buckets) (queues : t.queues = s.queues)
    (pkts : ∀ i, (t.drr i).pkts = (s.drr i).pkts) (bcount : ∀ i, (t.drr i).bcount = (s.drr i).bcount)
    (pktcnt : t.pktcnt = s.pktcnt) (bytecnt : t.bytecnt = s.bytecnt) : Counts t := by
  unfold Counts
  rw [buckets, queues, funext pkts, funext bcount, pktcnt, bytecnt]
  exact counts

/-- The deficit and the turn of a flow are no part of the accounts. -/
theorem counts_adjust (counts : Counts s) {q : PacketDRR} (queue : q.queue = (s.drr k).queue) (pkts : q.pkts = (s.drr k).pkts)
    (bcount : q.bcount = (s.drr k).bcount) {links : Links ℕ} {curr : Option ℕ} {flwcnt : ℤ} :
    Counts { s with links := links, curr := curr, drr := Function.update s.drr k q, flwcnt := flwcnt } :=
  counts_congr counts rfl (funext (update_kept PacketDRR.queue _ queue)) (update_kept PacketDRR.pkts _ pkts)
    (update_kept PacketDRR.bcount _ bcount) rfl rfl

theorem most_update {queues : ℕ → PacketQueue} {q : PacketQueue} (most : ∀ i, ∀ pkt ∈ queues i, pkt.size ≤ maxpkt)
    (written : ∀ pkt ∈ q, pkt.size ≤ maxpkt) : ∀ i, ∀ pkt ∈ Function.update queues k q i, pkt.size ≤ maxpkt := by
  intro i
  by_cases own : i = k
  · subst own
    rwa [Function.update_self]
  · rw [Function.update_of_ne own]
    exact most i

/-- A packet arrives: its flow becomes active, with no deficit, or has one more. -/
theorem Sound.arrive (sound : Sound quantum maxpkt s ring) (within : k < s.buckets) (size : 0 < pkt.size ∧ pkt.size ≤ maxpkt) :
    ∃ ring', Sound quantum maxpkt (s.arrive k pkt) ring' ∧
      (s.arrive k pkt).queues = Function.update s.queues k (s.queues k ++ [pkt]) ∧
      (∀ i, ((s.arrive k pkt).drr i).turn = (s.drr i).turn) ∧
      (s.queues k = [] → ((s.arrive k pkt).drr k).deficitCounter = 0) ∧
      ∀ i, i ≠ k ∨ s.queues k ≠ [] → ((s.arrive k pkt).drr i).deficitCounter = (s.drr i).deficitCounter := by
  have counts := counts_store sound.counts within size.1
  have queues := queues_store s k pkt
  have stored := store_unturned s k pkt
  have count : ((s.store k pkt).drr k).pkts = (s.queues k).length + 1 := by
    rw [counts.counted, queues, Function.update_self, List.length_append, List.length_singleton]
    rfl
  have some : s.queues k ++ [pkt] ≠ [] := by simp
  have most : ∀ i, ∀ p ∈ (s.store k pkt).queues i, p.size ≤ maxpkt := by
    rw [queues]
    refine most_update sound.most fun p member => ?_
    rcases List.mem_append.mp member with old | new
    · exact sound.most k p old
    · exact List.mem_singleton.mp new ▸ size.2
  by_cases empty : s.queues k = []
  · have one : ((s.store k pkt).drr k).pkts = 1 := by rw [count, empty]; rfl
    have result : s.arrive k pkt = (s.store k pkt).activate k := if_pos one
    have queues' : ((s.store k pkt).activate k).queues = (s.store k pkt).queues := funext (update_kept PacketDRR.queue _ (by rfl))
    have active := sound.active.enter empty some
    rw [← queues, ← queues'] at active
    rw [result]
    refine ⟨ring ++ [k], ⟨counts_adjust counts (by rfl) (by rfl) (by rfl), active, by rwa [queues'], sound.quantum⟩, by rw [queues', queues],
      fun i => ?_, fun _ => ?_, fun i other => ?_⟩
    · exact (update_kept PacketDRR.turn _ (by rfl) i).trans (stored.turn i)
    · simp [activate]
    · have apart : i ≠ k := other.resolve_right fun active => active empty
      rw [← stored.deficit i]
      exact congrArg PacketDRR.deficitCounter (Function.update_of_ne apart _ _)
  · have several : ((s.store k pkt).drr k).pkts ≠ 1 := by
      have positive := List.length_pos_of_ne_nil empty
      omega
    have result : s.arrive k pkt = s.store k pkt := if_neg several
    have active := sound.active.write empty some
    rw [← queues] at active
    rw [result]
    exact ⟨ring, ⟨counts, active, most, sound.quantum⟩, queues, stored.turn, fun none => absurd none empty, fun i _ => stored.deficit i⟩

/-- One drop takes the head packet of an active flow. -/
theorem Sound.overflow (sound : Sound quantum maxpkt s ring) (taken : s.overflow = some (next, pkt)) :
    ∃ ring', Sound quantum maxpkt next ring' ∧ Unturned s next ∧ ∀ i, s.queues i = [] → next.queues i = [] := by
  unfold DRR.overflow at taken
  obtain ⟨head, atHead, taken⟩ := Option.bind_eq_some_iff.mp taken
  obtain ⟨k, best, taken⟩ := Option.bind_eq_some_iff.mp taken
  obtain ⟨p, first, taken⟩ := Option.bind_eq_some_iff.mp taken
  have member : k ∈ ring := by
    rw [getMaxflow, atHead] at best
    cases best
    exact sound.active.argmax_mem atHead _
  obtain ⟨rest, queue⟩ : ∃ rest, s.queues k = p :: rest := List.head?_eq_some_iff.mp first
  have counts := counts_take sound.counts queue
  have queues := queues_take s k p
  rw [queue, List.tail_cons] at queues
  have count : ((s.take k p).drr k).pkts = rest.length := by
    rw [counts.counted, queues, Function.update_self]
  have most : ∀ i, ∀ b ∈ (s.take k p).queues i, b.size ≤ maxpkt := by
    rw [queues]
    exact most_update sound.most fun b inside => sound.most k b (queue ▸ List.mem_cons_of_mem _ inside)
  have fewer : ∀ i, s.queues i = [] → (s.take k p).queues i = [] := fun i none => by
    rw [queues, Function.update_of_ne, none]
    rintro rfl
    rw [queue] at none
    cases none
  dsimp only at taken
  split_ifs at taken with last
  · cases taken
    have empty : rest = [] := by
      rw [count] at last
      simpa using last
    subst empty
    have active := sound.active.leave atHead member
    rw [← queues] at active
    have unturned := take_unturned s k pkt
    exact ⟨ring.erase k, ⟨counts_congr counts rfl rfl (fun _ => rfl) (fun _ => rfl) rfl rfl, active, most, sound.quantum⟩,
      ⟨rfl, rfl, unturned.turn, unturned.deficit⟩, fewer⟩
  · cases taken
    have some : rest ≠ [] := fun none => last (by rw [count, none]; rfl)
    have active := sound.active.write (k := k) (by simp [queue]) some
    rw [← queues] at active
    exact ⟨ring, ⟨counts, active, most, sound.quantum⟩, take_unturned s k pkt, fewer⟩

theorem Sound.overflows {n : ℕ} {dropped : List Packet} (sound : Sound quantum maxpkt s ring)
    (taken : overflows n s = some (next, dropped)) :
    ∃ ring', Sound quantum maxpkt next ring' ∧ Unturned s next ∧ ∀ i, s.queues i = [] → next.queues i = [] := by
  have still : Unturned s s := ⟨rfl, rfl, fun _ => rfl, fun _ => rfl⟩
  induction n generalizing s ring dropped with
  | zero =>
    unfold DRR.overflows at taken
    split_ifs at taken with above
    cases taken
    exact ⟨ring, sound, still, fun _ => id⟩
  | succ n ih =>
    unfold DRR.overflows at taken
    split_ifs at taken with above
    · obtain ⟨⟨mid, p⟩, first, taken⟩ := Option.bind_eq_some_iff.mp taken
      obtain ⟨⟨last, rest⟩, later, taken⟩ := Option.bind_eq_some_iff.mp taken
      cases taken
      obtain ⟨ring', sound', unturned, fewer⟩ := sound.overflow first
      obtain ⟨ring'', sound'', unturned', fewer'⟩ := ih sound' later ⟨rfl, rfl, fun _ => rfl, fun _ => rfl⟩
      exact ⟨ring'', sound'', unturned.trans unturned', fun i none => fewer' i (fewer i none)⟩
    · cases taken
      exact ⟨ring, sound, still, fun _ => id⟩

/-- No arrival changes a turn. A flow that it activates has no deficit, and the others keep theirs. -/
theorem Sound.enque {dropped : List Packet} (sound : Sound quantum maxpkt s ring) (size : 0 < pkt.size ∧ pkt.size ≤ maxpkt)
    (taken : s.enque pkt = some (next, dropped)) :
    ∃ ring', Sound quantum maxpkt next ring' ∧ (∀ i, (next.drr i).turn = (s.drr i).turn) ∧
      (∀ i, s.queues i ≠ [] → (next.drr i).deficitCounter = (s.drr i).deficitCounter) ∧
      ∀ i, s.queues i = [] → next.queues i ≠ [] → (next.drr i).deficitCounter = 0 := by
  unfold DRR.enque at taken
  split_ifs at taken with inside
  have within : s.which pkt < s.buckets := by
    have positive : (0 : ℤ) < s.buckets := Int.natCast_pos.mpr s.buckets.pos
    have bound := Int.tmod_lt_of_pos (hash s.mask pkt.saddr) positive
    unfold index at inside
    unfold which index
    omega
  obtain ⟨ring', sound', queues, turn, fresh, kept⟩ := sound.arrive within size
  obtain ⟨ring'', sound'', unturned, fewer⟩ := sound'.overflows taken
  refine ⟨ring'', sound'', fun i => (unturned.turn i).trans (turn i), fun i active => ?_, fun i none some => ?_⟩
  · rw [unturned.deficit i]
    by_cases own : i = s.which pkt
    · exact kept i (Or.inr (own ▸ active))
    · exact kept i (Or.inl own)
  · by_cases own : i = s.which pkt
    · subst own
      rw [unturned.deficit]
      exact fresh none
    · refine absurd (fewer i ?_) some
      rw [queues, Function.update_of_ne own, none]

end Arrivals

/-- What the grant at the start of a visit leaves the flow with. -/
def granted (s : DRR) (i : ℕ) : ℤ := (grant s.quantum (s.drr i)).deficitCounter

theorem granted_eq (s : DRR) (i : ℕ) :
    s.granted i = (s.drr i).deficitCounter + if (s.drr i).turn then 0 else s.quantum := by
  unfold granted grant
  split_ifs
  · rw [add_zero]
  · rfl

/-- What a visit does to the flow at `curr`, whose queue is `head :: rest`. -/
structure Visited (s next : DRR) (v : Visit) (head : Packet) (rest : PacketQueue) : Prop where
  curr : s.curr = some v.flow
  queue : s.queues v.flow = head :: rest
  granted : v.granted = !(s.drr v.flow).turn
  turn : ∀ i, i ≠ v.flow → (next.drr i).turn = (s.drr i).turn
  deficit : ∀ i, i ≠ v.flow → (next.drr i).deficitCounter = (s.drr i).deficitCounter
  passed : v.pkt = none → s.granted v.flow < head.size ∧ next.queues = s.queues ∧ (next.drr v.flow).turn = false ∧
    (next.drr v.flow).deficitCounter = s.granted v.flow
  sent : ∀ pkt, v.pkt = some pkt → pkt = head ∧ head.size ≤ s.granted v.flow ∧ next.queues = Function.update s.queues v.flow rest ∧
    (rest ≠ [] → (next.drr v.flow).turn = true ∧ (next.drr v.flow).deficitCounter = s.granted v.flow - head.size)

section Visits

variable {s : DRR} {t : List ℕ} {this : ℕ} {head : Packet} {rest : PacketQueue} {quantum : ℤ} {maxpkt : ℕ}

theorem grant_eq (quantum : ℤ) (q : PacketDRR) : ∃ deficit, grant quantum q = { q with deficitCounter := deficit, turn := true } := by
  unfold grant
  split_ifs with turn
  · exact ⟨q.deficitCounter, by rw [← turn]⟩
  · exact ⟨_, rfl⟩

/-- The state in which the flow at `curr` has its turn. -/
def turned (s : DRR) (this : ℕ) : DRR := { s with drr := Function.update s.drr this (grant s.quantum (s.drr this)) }

theorem queues_turned (s : DRR) (this : ℕ) : (s.turned this).queues = s.queues := by
  obtain ⟨deficit, same⟩ := grant_eq s.quantum (s.drr this)
  exact funext (update_kept PacketDRR.queue _ (by rw [same]))

theorem Sound.turned (sound : Sound quantum maxpkt s (this :: t)) : Sound quantum maxpkt (s.turned this) (this :: t) := by
  obtain ⟨deficit, same⟩ := grant_eq s.quantum (s.drr this)
  refine ⟨counts_adjust sound.counts (by rw [same]) (by rw [same]) (by rw [same]), ?_, ?_, sound.quantum⟩
  · rw [queues_turned]
    exact sound.active
  · rw [queues_turned]
    exact sound.most

/-- The flow at `curr` sends its head packet, and leaves the circle when that was its last one. -/
theorem Sound.send (sound : Sound quantum maxpkt s (this :: t)) (queue : s.queues this = head :: rest) :
    ∃ ring', Sound quantum maxpkt (s.send this head) ring' ∧ (s.send this head).queues = Function.update s.queues this rest ∧
      (∀ i, i ≠ this → ((s.send this head).drr i).turn = (s.drr i).turn ∧
        ((s.send this head).drr i).deficitCounter = (s.drr i).deficitCounter) ∧
      (rest ≠ [] → ((s.send this head).drr this).turn = (s.drr this).turn ∧
        ((s.send this head).drr this).deficitCounter = (s.drr this).deficitCounter - head.size) := by
  have charged : Counts (s.charge this head) := counts_adjust sound.counts (by rfl) (by rfl) (by rfl)
  have queues' : (s.charge this head).queues = s.queues := funext (update_kept PacketDRR.queue _ (by rfl))
  have counts := counts_take charged (queues' ▸ queue)
  have queues : ((s.charge this head).take this head).queues = Function.update s.queues this rest := by
    rw [queues_take, queues', queue, List.tail_cons]
  have count : (((s.charge this head).take this head).drr this).pkts = rest.length := by
    rw [counts.counted, queues, Function.update_self]
  have most : ∀ i, ∀ b ∈ Function.update s.queues this rest i, b.size ≤ maxpkt :=
    most_update sound.most fun b inside => sound.most this b (queue ▸ List.mem_cons_of_mem _ inside)
  by_cases empty : rest = []
  · subst empty
    have result : s.send this head = (((s.charge this head).take this head).reset this).idle this this := if_pos count
    have reset : (((s.charge this head).take this head).reset this).queues = Function.update s.queues this [] := by
      rw [← queues]
      exact funext (update_kept PacketDRR.queue _ (by rfl))
    have active := sound.active.leave sound.active.linked.head List.mem_cons_self
    rw [← reset] at active
    rw [result]
    refine ⟨_, ⟨counts_adjust counts (by rfl) (by rfl) (by rfl), active, ?_, sound.quantum⟩, reset, fun i other => ?_, fun none => absurd rfl none⟩
    · rw [← reset] at most
      exact most
    · simp [idle, DRR.reset, take, charge, other]
  · have several : (((s.charge this head).take this head).drr this).pkts ≠ 0 := by
      rw [count]
      simpa using empty
    have result : s.send this head = (s.charge this head).take this head := if_neg several
    have active := sound.active.write (k := this) (by simp [queue]) empty
    rw [← queues] at active most
    rw [result]
    refine ⟨_, ⟨counts, active, most, sound.quantum⟩, queues, fun i other => ?_, fun _ => ?_⟩
    · simp [take, charge, other]
    · simp [take, charge]

theorem queues_pass (s : DRR) (this : ℕ) : (s.pass this).queues = s.queues := funext (update_kept PacketDRR.queue _ (by rfl))

/-- The pointer goes on to the next flow of the circle. -/
theorem Sound.pass (sound : Sound quantum maxpkt s (this :: t)) : Sound quantum maxpkt (s.pass this) (t ++ [this]) := by
  have active : ActiveRing s.links (t ++ [this]).head? s.flwcnt s.queues (t ++ [this]) := ActiveRing.turn (l := [this]) sound.active
  rw [sound.active.linked.circle.head_turn, ← queues_pass s this] at active
  refine ⟨counts_adjust sound.counts (by rfl) (by rfl) (by rfl), active, ?_, sound.quantum⟩
  rw [queues_pass]
  exact sound.most

/-- A visit serves the flow at `curr`, or takes the pointer on. -/
theorem Sound.visit (sound : Sound quantum maxpkt s (this :: t)) :
    ∃ next v head rest ring', s.visit = some (next, v) ∧ v.flow = this ∧ Visited s next v head rest ∧ Sound quantum maxpkt next ring' ∧
      (v.pkt = none → ring' = t ++ [this]) := by
  have atHead : s.curr = some this := sound.active.linked.head
  obtain ⟨head, rest, queue⟩ := List.exists_cons_of_ne_nil ((sound.active.member this).mp List.mem_cons_self)
  have queue' : (s.turned this).queues this = head :: rest := by rw [queues_turned, queue]
  have first : ((s.turned this).drr this).queue.head? = some head := congrArg List.head? queue'
  have own : ((s.turned this).drr this).turn = true := by
    obtain ⟨deficit, same⟩ := grant_eq s.quantum (s.drr this)
    simp [DRR.turned, same]
  have funds : ((s.turned this).drr this).deficitCounter = s.granted this := by simp [DRR.turned, DRR.granted]
  have others : ∀ i, i ≠ this → (s.turned this).drr i = s.drr i := fun i other => Function.update_of_ne other _ _
  have start : s.visit = if ((s.turned this).drr this).deficitCounter ≥ (head.size : ℤ) then
      some ((s.turned this).send this head, ⟨this, !(s.drr this).turn, some head⟩)
      else some ((s.turned this).pass this, ⟨this, !(s.drr this).turn, none⟩) := by
    have unfolded : s.visit = s.curr.bind fun this => ((s.turned this).drr this).queue.head?.bind fun pkt =>
        if ((s.turned this).drr this).deficitCounter ≥ (pkt.size : ℤ) then
          some ((s.turned this).send this pkt, ⟨this, !(s.drr this).turn, some pkt⟩)
        else some ((s.turned this).pass this, ⟨this, !(s.drr this).turn, none⟩) := rfl
    rw [unfolded, atHead, Option.bind_some, first, Option.bind_some]
  rw [start]
  split_ifs with enough
  · obtain ⟨ring', sound', queues, kept, left⟩ := sound.turned.send queue'
    refine ⟨_, _, head, rest, ring', rfl, rfl, ⟨atHead, queue, rfl, fun i other => ?_, fun i other => ?_, fun silent => ?_, ?_⟩, sound',
      fun silent => ?_⟩
    · rw [(kept i other).1, others i other]
    · rw [(kept i other).2, others i other]
    · cases silent
    · rintro _ ⟨⟩
      refine ⟨rfl, funds ▸ enough, by rw [queues, queues_turned], fun some => ?_⟩
      obtain ⟨turn, deficit⟩ := left some
      exact ⟨turn.trans own, by rw [deficit, funds]⟩
    · cases silent
  · refine ⟨_, _, head, rest, t ++ [this], rfl, rfl, ⟨atHead, queue, rfl, fun i other => ?_, fun i other => ?_, fun _ => ?_, ?_⟩,
      sound.turned.pass, fun _ => rfl⟩
    · simp [DRR.pass, others i other, other]
    · simp [DRR.pass, others i other, other]
    · refine ⟨by rw [← funds]; exact not_le.mp enough, by rw [queues_pass, queues_turned], by simp [DRR.pass], ?_⟩
      simp [DRR.pass, ← funds]
    · rintro _ ⟨⟩

end Visits

end Ns2.DRR
