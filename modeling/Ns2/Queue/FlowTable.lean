import Ns2.Library.CircularList
import Ns2.Queue.PacketQueue

namespace Ns2

def bytes (q : PacketQueue) : ℤ := (q.map fun pkt => (pkt.size : ℤ)).sum

theorem bytes_append (q : PacketQueue) (pkt : Packet) : bytes (q ++ [pkt]) = bytes q + pkt.size := by
  simp [bytes]

theorem bytes_cons (pkt : Packet) (q : PacketQueue) : bytes (pkt :: q) = pkt.size + bytes q := by
  simp [bytes]

/-- The counters of the first `n` flows agree with their queues, and the totals with the counters. -/
structure FlowTally (n : ℕ) (queues : ℕ → PacketQueue) (pkts bcount : ℕ → ℤ) (packets total : ℤ) : Prop where
  inside : ∀ i, queues i ≠ [] → i < n
  sizes : ∀ i, ∀ pkt ∈ queues i, 0 < pkt.size
  counted : ∀ i, pkts i = (queues i).length
  sized : ∀ i, bcount i = bytes (queues i)
  packets_sum : packets = ∑ i ∈ Finset.range n, pkts i
  total_sum : total = ∑ i ∈ Finset.range n, bcount i

section Tallies

variable {n k : ℕ} {queues : ℕ → PacketQueue} {pkts bcount : ℕ → ℤ} {packets total : ℤ} {pkt : Packet} {rest : PacketQueue}

theorem tally_empty (n : ℕ) : FlowTally n (fun _ => []) (fun _ => 0) (fun _ => 0) 0 0 :=
  ⟨fun _ some => absurd rfl some, fun _ _ member => absurd member List.not_mem_nil, fun _ => rfl, fun _ => rfl, by simp, by simp⟩

/-- One queue is written, and its counters and the totals with it. -/
theorem FlowTally.write (tally : FlowTally n queues pkts bcount packets total) (within : k < n) {q : PacketQueue}
    (sizes : ∀ pkt ∈ q, 0 < pkt.size) {packets' total' : ℤ} (count : packets' = packets - pkts k + q.length)
    (size : total' = total - bcount k + bytes q) :
    FlowTally n (Function.update queues k q) (Function.update pkts k q.length) (Function.update bcount k (bytes q)) packets'
      total' where
  inside i some := by
    by_cases own : i = k
    · exact own ▸ within
    · exact tally.inside i (by simpa [own] using some)
  sizes i := by
    by_cases own : i = k
    · subst own
      simpa using sizes
    · simpa [own] using tally.sizes i
  counted i := by
    by_cases own : i = k
    · subst own
      simp
    · simpa [own] using tally.counted i
  sized i := by
    by_cases own : i = k
    · subst own
      simp
    · simpa [own] using tally.sized i
  packets_sum := by
    have sum := sum_update within id pkts q.length
    simp only [id] at sum
    rw [sum, ← tally.packets_sum]
    exact count
  total_sum := by
    have sum := sum_update within id bcount (bytes q)
    simp only [id] at sum
    rw [sum, ← tally.total_sum]
    exact size

theorem FlowTally.push (tally : FlowTally n queues pkts bcount packets total) (within : k < n) (size : 0 < pkt.size) :
    FlowTally n (Function.update queues k (queues k ++ [pkt])) (Function.update pkts k (pkts k + 1))
      (Function.update bcount k (bcount k + pkt.size)) (packets + 1) (total + pkt.size) := by
  have count : pkts k + 1 = (queues k ++ [pkt]).length := by
    rw [tally.counted, List.length_append, List.length_singleton]
    rfl
  have more : bcount k + pkt.size = bytes (queues k ++ [pkt]) := by rw [tally.sized, bytes_append]
  rw [count, more]
  refine tally.write within (fun p member => ?_) (by omega) (by omega)
  rcases List.mem_append.mp member with old | new
  · exact tally.sizes k p old
  · exact List.mem_singleton.mp new ▸ size

theorem FlowTally.pop (tally : FlowTally n queues pkts bcount packets total) (queue : queues k = pkt :: rest) :
    FlowTally n (Function.update queues k rest) (Function.update pkts k (pkts k - 1))
      (Function.update bcount k (bcount k - pkt.size)) (packets - 1) (total - pkt.size) := by
  have within := tally.inside k (by simp [queue])
  have count := tally.counted k
  have size := tally.sized k
  rw [queue, List.length_cons] at count
  rw [queue, bytes_cons] at size
  have fewer : pkts k - 1 = rest.length := by omega
  have less : bcount k - pkt.size = bytes rest := by omega
  rw [fewer, less]
  refine tally.write within (fun p member => ?_) (by omega) (by omega)
  exact tally.sizes k p (queue ▸ List.mem_cons_of_mem pkt member)

theorem FlowTally.total_eq (tally : FlowTally n queues pkts bcount packets total) :
    total = ∑ i ∈ Finset.range n, bytes (queues i) := by
  simp only [tally.total_sum, tally.sized]

theorem FlowTally.packets_pos (tally : FlowTally n queues pkts bcount packets total) (some : queues k ≠ []) : 0 < packets := by
  rw [tally.packets_sum]
  refine Finset.sum_pos' (fun i _ => ?_) ⟨k, Finset.mem_range.mpr (tally.inside k some), ?_⟩
  · rw [tally.counted]
    exact Int.natCast_nonneg _
  · rw [tally.counted]
    exact Int.natCast_pos.mpr (List.length_pos_of_ne_nil some)

theorem FlowTally.exists_some (tally : FlowTally n queues pkts bcount packets total) (positive : total ≠ 0) : ∃ k, queues k ≠ [] := by
  by_contra none
  push Not at none
  refine positive ?_
  rw [tally.total_eq]
  exact Finset.sum_eq_zero fun i _ => by rw [none i]; rfl

end Tallies

/-- The circle at `curr` is `ring`, the flows with packets once each. -/
structure ActiveRing (links : Links ℕ) (curr : Option ℕ) (flwcnt : ℤ) (queues : ℕ → PacketQueue) (ring : List ℕ) :
    Prop where
  linked : links.Ring curr ring
  member : ∀ i, i ∈ ring ↔ queues i ≠ []
  flwcnt_eq : flwcnt = ring.length

section Rings

variable {links : Links ℕ} {curr : Option ℕ} {flwcnt : ℤ} {queues : ℕ → PacketQueue} {ring l r : List ℕ} {head k : ℕ}
  {q : PacketQueue}

theorem activeRing_empty (links : Links ℕ) : ActiveRing links none 0 (fun _ => []) [] :=
  ⟨Links.ring_nil links, fun i => by simp, rfl⟩

theorem ActiveRing.nodup (active : ActiveRing links curr flwcnt queues ring) : ring.Nodup := active.linked.circle.nodup

theorem ActiveRing.curr_some (active : ActiveRing links curr flwcnt queues ring) (some : ring ≠ []) :
    ∃ head t, curr = Option.some head ∧ ring = head :: t := by
  obtain ⟨head, t, rfl⟩ := List.exists_cons_of_ne_nil some
  exact ⟨head, t, active.linked.head, rfl⟩

theorem ActiveRing.ring_some (active : ActiveRing links curr flwcnt queues ring) (atHead : curr = some head) :
    ∃ t, ring = head :: t := by
  have first := active.linked.head
  rw [atHead] at first
  cases ring with
  | nil => cases first
  | cons h t =>
    cases Option.some.inj first
    exact ⟨t, rfl⟩

theorem ActiveRing.follow (active : ActiveRing links curr flwcnt queues ring) (atHead : curr = some head) :
    links.follow flwcnt.toNat head = ring := by
  obtain ⟨t, rfl⟩ := active.ring_some atHead
  rw [active.flwcnt_eq, Int.toNat_natCast]
  exact active.linked.circle.follow

theorem ActiveRing.iterate (active : ActiveRing links curr flwcnt queues ring) (atHead : curr = some head) :
    links.next^[flwcnt.toNat] head = head := by
  obtain ⟨t, rfl⟩ := active.ring_some atHead
  rw [active.flwcnt_eq, Int.toNat_natCast]
  exact active.linked.circle.iterate

theorem ActiveRing.argmax_mem (active : ActiveRing links curr flwcnt queues ring) (atHead : curr = some head)
    (f : ℕ → ℤ) : links.argmax f flwcnt.toNat head head ∈ ring := by
  obtain ⟨t, rfl⟩ := active.ring_some atHead
  rw [active.flwcnt_eq, Int.toNat_natCast]
  exact active.linked.circle.argmax_mem f

/-- A walk round the circle that looks for one of its flows finds the first one in this order. -/
theorem ActiveRing.seek (active : ActiveRing links curr flwcnt queues ring) (atHead : curr = some head) {p : ℕ → Bool}
    {i : ℕ} (member : i ∈ ring) (holds : p i = true) :
    ∃ this l r, ring = l ++ this :: r ∧ links.seek p flwcnt.toNat head = some this ∧ p this = true := by
  obtain ⟨t, rfl⟩ := active.ring_some atHead
  obtain ⟨this, found⟩ := Option.isSome_iff_exists.mp (List.find?_isSome.mpr ⟨i, member, holds⟩)
  obtain ⟨l, r, split⟩ := List.append_of_mem (List.mem_of_find?_eq_some found)
  refine ⟨this, l, r, split, ?_, List.find?_some found⟩
  rw [active.flwcnt_eq, Int.toNat_natCast, active.linked.circle.seek, found]

/-- A flow that was empty gets a packet. -/
theorem ActiveRing.enter (active : ActiveRing links curr flwcnt queues ring) (empty : queues k = []) (some : q ≠ []) :
    ActiveRing (links.activate k curr).1 (links.activate k curr).2 (flwcnt + 1) (Function.update queues k q)
      (ring ++ [k]) where
  linked := active.linked.activate fun member => (active.member k).mp member empty
  member i := by
    by_cases own : i = k
    · subst own
      simp [some]
    · simpa [own] using active.member i
  flwcnt_eq := by simp [active.flwcnt_eq]

/-- The queue of an active flow changes, but not to nothing. -/
theorem ActiveRing.write (active : ActiveRing links curr flwcnt queues ring) (was : queues k ≠ []) (some : q ≠ []) :
    ActiveRing links curr flwcnt (Function.update queues k q) ring where
  linked := active.linked
  member i := by
    by_cases own : i = k
    · subst own
      simpa [some] using (active.member i).mpr was
    · simpa [own] using active.member i
  flwcnt_eq := active.flwcnt_eq

/-- The last packet of a flow is gone. -/
theorem ActiveRing.leave (active : ActiveRing links curr flwcnt queues ring) (atHead : curr = some head)
    (member : k ∈ ring) :
    ActiveRing (links.idle k head).1 (links.idle k head).2 (flwcnt - 1) (Function.update queues k []) (ring.erase k) where
  linked := by
    obtain ⟨t, rfl⟩ := active.ring_some atHead
    exact active.linked.circle.idle member
  member i := by
    rw [active.nodup.mem_erase_iff]
    by_cases own : i = k
    · subst own
      simp
    · simpa [own] using active.member i
  flwcnt_eq := by
    have positive := List.length_pos_of_mem member
    rw [active.flwcnt_eq, List.length_erase_of_mem member]
    omega

/-- The circle is read from another flow on. -/
theorem ActiveRing.turn (active : ActiveRing links curr flwcnt queues (l ++ r)) :
    ActiveRing links (r ++ l).head? flwcnt queues (r ++ l) where
  linked := ⟨rfl, active.linked.circle.swap⟩
  member i := by
    rw [List.mem_append, or_comm, ← List.mem_append]
    exact active.member i
  flwcnt_eq := by
    rw [List.length_append, add_comm, ← List.length_append]
    exact active.flwcnt_eq

/-- Some flow is active when there are bytes. -/
theorem FlowTally.active {n : ℕ} {pkts bcount : ℕ → ℤ} {packets total : ℤ} (tally : FlowTally n queues pkts bcount packets total)
    (active : ActiveRing links curr flwcnt queues ring) (positive : total ≠ 0) : ring ≠ [] := by
  obtain ⟨k, some⟩ := tally.exists_some positive
  exact List.ne_nil_of_mem ((active.member k).mpr some)

end Rings

end Ns2
