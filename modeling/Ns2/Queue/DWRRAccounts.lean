import Ns2.Queue.DWRR

namespace Ns2.DWRR

def queues (s : DWRR) (i : ℕ) : PacketQueue := (s.dwrr i).queue

/-- The counters of the flows and their totals. -/
abbrev Counts (s : DWRR) : Prop :=
  FlowTally s.buckets s.queues (fun i => (s.dwrr i).pkts) (fun i => (s.dwrr i).bcount) s.pktcnt s.bytecnt

/-- `ring` is the circle of the active flows from `curr` on; each has the weight
of a source address of its own bucket. -/
structure Circle (s : DWRR) (ring : List ℕ) : Prop where
  linked : s.links.Ring s.curr ring
  member : ∀ i, i ∈ ring ↔ s.queues i ≠ []
  flwcnt : s.flwcnt = ring.length
  own : ∀ i ∈ ring, 0 ≤ (s.dwrr i).weight ∧ (index s.buckets (s.dwrr i).weight).toNat = i

/-- The weight table of the flows in `ring`. -/
structure Ranked (s : DWRR) (ring : List ℕ) : Prop where
  perm : s.weights.Perm (ring.map fun i => (s.dwrr i).weight)
  sorted : s.weights.Pairwise (· > ·)
  cerprique : s.cerprique < ring.length

section Fields

variable (s : DWRR) (k : ℕ) (pkt : Packet)

theorem rearr_eq : ∃ weights cerprique, s.rearr = { s with weights := weights, cerprique := cerprique } := by
  unfold rearr
  split
  · exact ⟨_, _, rfl⟩
  · exact ⟨_, _, rfl⟩

@[simp] theorem rearr_dwrr : s.rearr.dwrr = s.dwrr := by
  obtain ⟨_, _, same⟩ := s.rearr_eq
  rw [same]

@[simp] theorem rearr_queues : s.rearr.queues = s.queues := by
  funext i
  simp [queues]

@[simp] theorem rearr_buckets : s.rearr.buckets = s.buckets := by
  obtain ⟨_, _, same⟩ := s.rearr_eq
  rw [same]

@[simp] theorem rearr_blimit : s.rearr.blimit = s.blimit := by
  obtain ⟨_, _, same⟩ := s.rearr_eq
  rw [same]

@[simp] theorem rearr_links : s.rearr.links = s.links := by
  obtain ⟨_, _, same⟩ := s.rearr_eq
  rw [same]

@[simp] theorem rearr_curr : s.rearr.curr = s.curr := by
  obtain ⟨_, _, same⟩ := s.rearr_eq
  rw [same]

@[simp] theorem rearr_flwcnt : s.rearr.flwcnt = s.flwcnt := by
  obtain ⟨_, _, same⟩ := s.rearr_eq
  rw [same]

@[simp] theorem rearr_pktcnt : s.rearr.pktcnt = s.pktcnt := by
  obtain ⟨_, _, same⟩ := s.rearr_eq
  rw [same]

@[simp] theorem rearr_bytecnt : s.rearr.bytecnt = s.bytecnt := by
  obtain ⟨_, _, same⟩ := s.rearr_eq
  rw [same]

theorem queues_store : (s.store k pkt).queues = Function.update s.queues k (s.queues k ++ [pkt]) := by
  funext i
  exact Function.apply_update (fun _ => PacketDWRR.queue) s.dwrr k _ i

theorem queues_take : (s.take k pkt).queues = Function.update s.queues k (s.queues k).tail := by
  funext i
  exact Function.apply_update (fun _ => PacketDWRR.queue) s.dwrr k _ i

theorem store_pkts : (fun i => ((s.store k pkt).dwrr i).pkts) =
    Function.update (fun i => (s.dwrr i).pkts) k ((s.dwrr k).pkts + 1) :=
  funext fun i => Function.apply_update (fun _ => PacketDWRR.pkts) s.dwrr k _ i

theorem store_bcount : (fun i => ((s.store k pkt).dwrr i).bcount) =
    Function.update (fun i => (s.dwrr i).bcount) k ((s.dwrr k).bcount + pkt.size) :=
  funext fun i => Function.apply_update (fun _ => PacketDWRR.bcount) s.dwrr k _ i

theorem take_pkts : (fun i => ((s.take k pkt).dwrr i).pkts) =
    Function.update (fun i => (s.dwrr i).pkts) k ((s.dwrr k).pkts - 1) :=
  funext fun i => Function.apply_update (fun _ => PacketDWRR.pkts) s.dwrr k _ i

theorem take_bcount : (fun i => ((s.take k pkt).dwrr i).bcount) =
    Function.update (fun i => (s.dwrr i).bcount) k ((s.dwrr k).bcount - pkt.size) :=
  funext fun i => Function.apply_update (fun _ => PacketDWRR.bcount) s.dwrr k _ i

end Fields

section Counting

variable {s t : DWRR} {ring : List ℕ} {k : ℕ} {pkt : Packet} {rest : PacketQueue}

/-- Only the queues, their counters and the totals matter. -/
theorem counts_congr (counts : Counts s) (buckets : t.buckets = s.buckets) (queues : t.queues = s.queues)
    (pkts : ∀ i, (t.dwrr i).pkts = (s.dwrr i).pkts) (bcount : ∀ i, (t.dwrr i).bcount = (s.dwrr i).bcount)
    (pktcnt : t.pktcnt = s.pktcnt) (bytecnt : t.bytecnt = s.bytecnt) : Counts t := by
  unfold Counts
  rw [buckets, queues, funext pkts, funext bcount, pktcnt, bytecnt]
  exact counts

theorem counts_store (counts : Counts s) (within : k < s.buckets) (size : 0 < pkt.size) : Counts (s.store k pkt) := by
  unfold Counts
  rw [queues_store, store_pkts, store_bcount]
  exact counts.push within size

theorem counts_take (counts : Counts s) (queue : s.queues k = pkt :: rest) : Counts (s.take k pkt) := by
  unfold Counts
  rw [queues_take, queue, take_pkts, take_bcount]
  exact counts.pop queue

end Counting

section Order

variable {s t : DWRR} {ring : List ℕ} {k : ℕ} {pkt : Packet} {rest : PacketQueue}

theorem Circle.congr (circle : Circle s ring) (links : t.links = s.links) (curr : t.curr = s.curr)
    (flwcnt : t.flwcnt = s.flwcnt) (buckets : t.buckets = s.buckets)
    (some : ∀ i, t.queues i ≠ [] ↔ s.queues i ≠ []) (weight : ∀ i ∈ ring, (t.dwrr i).weight = (s.dwrr i).weight) :
    Circle t ring where
  linked := by
    rw [links, curr]
    exact circle.linked
  member i := (circle.member i).trans (some i).symm
  flwcnt := flwcnt.trans circle.flwcnt
  own i member := by
    rw [weight i member, buckets]
    exact circle.own i member

theorem Ranked.congr (ranked : Ranked s ring) (weights : t.weights = s.weights) (cerprique : t.cerprique = s.cerprique)
    (weight : ∀ i ∈ ring, (t.dwrr i).weight = (s.dwrr i).weight) : Ranked t ring where
  perm := by
    rw [weights, List.map_congr_left weight]
    exact ranked.perm
  sorted := by
    rw [weights]
    exact ranked.sorted
  cerprique := cerprique ▸ ranked.cerprique

theorem Circle.weights_nodup (circle : Circle s ring) : (ring.map fun i => (s.dwrr i).weight).Nodup :=
  List.Nodup.map_on (fun i inI j inJ same => by
    have ownI := (circle.own i inI).2
    rw [same, (circle.own j inJ).2] at ownI
    exact ownI.symm) circle.linked.circle.nodup

theorem Circle.follow (circle : Circle s ring) {head : ℕ} (atHead : s.curr = some head) :
    s.links.follow s.flwcnt.toNat head = ring := by
  have first := circle.linked.head
  rw [atHead] at first
  cases ring with
  | nil => cases first
  | cons h t =>
    cases Option.some.inj first
    rw [circle.flwcnt, Int.toNat_natCast]
    exact circle.linked.circle.follow

theorem Circle.rearr (circle : Circle s ring) : Circle s.rearr ring :=
  circle.congr (rearr_links s) (rearr_curr s) (rearr_flwcnt s) (rearr_buckets s) (fun i => by rw [rearr_queues])
    fun i _ => by rw [rearr_dwrr]

theorem Circle.curr_some (circle : Circle s ring) (some : ring ≠ []) : ∃ head t, s.curr = Option.some head ∧ ring = head :: t := by
  obtain ⟨head, t, rfl⟩ := List.exists_cons_of_ne_nil some
  exact ⟨head, t, circle.linked.head, rfl⟩

/-- `rearr` ranks the active flows and starts again at the largest weight. -/
theorem Circle.rearr_ranked (circle : Circle s ring) (some : ring ≠ []) :
    Ranked s.rearr ring ∧ s.rearr.cerprique = 0 := by
  obtain ⟨head, t, atHead, rfl⟩ := circle.curr_some some
  have table : s.rearr = { s with
      weights := BubbleSort.sort s.flwcnt.toNat ((head :: t).map fun i => (s.dwrr i).weight), cerprique := 0 } := by
    unfold DWRR.rearr
    rw [atHead, ← circle.follow atHead]
  have length : s.flwcnt.toNat = ((head :: t).map fun i => (s.dwrr i).weight).length := by
    rw [circle.flwcnt, Int.toNat_natCast, List.length_map]
  rw [table, length]
  refine ⟨⟨BubbleSort.sort_perm _, ?_, Nat.succ_pos _⟩, rfl⟩
  have distinct := (BubbleSort.sort_perm _).nodup_iff.mpr circle.weights_nodup
  exact ((BubbleSort.sort_sorted _).and distinct).imp fun both => lt_of_le_of_ne both.1 both.2.symm

/-- The state between two calls, and in the loops of a call. -/
structure Sound (s : DWRR) (ring : List ℕ) : Prop where
  counts : Counts s
  circle : Circle s ring
  ranked : ring ≠ [] → Ranked s ring

/-- A flow whose last packet is gone leaves the circle. -/
theorem Circle.idle (circle : Circle s ring) {head : ℕ} (atHead : s.curr = some head) (member : k ∈ ring)
    (counts : Counts t) (links : t.links = s.links) (flwcnt : t.flwcnt = s.flwcnt) (buckets : t.buckets = s.buckets)
    (queues : t.queues = Function.update s.queues k []) (weight : ∀ i ∈ ring, (t.dwrr i).weight = (s.dwrr i).weight) :
    Sound (t.idle k head) (ring.erase k) ∧ ((t.idle k head).cerprique = 0 ∨ ring.erase k = []) := by
  have distinct := circle.linked.circle.nodup
  have first := circle.linked.head
  have shrunk : Circle { t with
      links := (t.links.idle k head).1, curr := (t.links.idle k head).2, flwcnt := t.flwcnt - 1 } (ring.erase k) := by
    refine ⟨?_, fun i => ?_, ?_, fun i inside => ?_⟩
    · rw [links]
      cases ring with
      | nil => exact absurd member List.not_mem_nil
      | cons h l =>
        cases Option.some.inj (atHead.symm.trans first)
        exact circle.linked.circle.idle member
    · rw [distinct.mem_erase_iff, circle.member]
      show _ ↔ t.queues i ≠ []
      rw [queues]
      by_cases own : i = k
      · subst own
        simp
      · simp [own]
    · have positive := List.length_pos_of_mem member
      have fewer := circle.flwcnt
      simp only [flwcnt, List.length_erase_of_mem member]
      omega
    · have old := List.mem_of_mem_erase inside
      simp only [weight i old, buckets]
      exact circle.own i old
  refine ⟨⟨?_, shrunk.rearr, fun some => (shrunk.rearr_ranked some).1⟩, ?_⟩
  · refine counts_congr counts (rearr_buckets _) (rearr_queues _) (fun i => ?_) (fun i => ?_) (rearr_pktcnt _) (rearr_bytecnt _)
    · unfold DWRR.idle
      rw [rearr_dwrr]
    · unfold DWRR.idle
      rw [rearr_dwrr]
  · by_cases some : ring.erase k = []
    · exact Or.inr some
    · exact Or.inl (shrunk.rearr_ranked some).2

/-- The table of weights is as it was. -/
def Undisturbed (s next : DWRR) : Prop := next.weights = s.weights ∧ next.cerprique = s.cerprique

/-- The table was made anew, if a flow is left for it. -/
def Restarted (next : DWRR) : Prop := next.cerprique = 0 ∨ ∀ i, next.queues i = []

/-- What stays as it is when packets come and go outside `deque`: everything
that a visit goes by, the weights in so far as the flow is one of `kept`. -/
structure Frame (kept : ℕ → Prop) (s next : DWRR) : Prop where
  buckets : next.buckets = s.buckets
  blimit : next.blimit = s.blimit
  turn : ∀ i, (next.dwrr i).turn = (s.dwrr i).turn
  weight : ∀ i, kept i → (next.dwrr i).weight = (s.dwrr i).weight

theorem Frame.refl (kept : ℕ → Prop) (s : DWRR) : Frame kept s s := ⟨rfl, rfl, fun _ => rfl, fun _ _ => rfl⟩

theorem Frame.trans {kept : ℕ → Prop} {s mid next : DWRR} (first : Frame kept s mid) (second : Frame (fun _ => True) mid next) :
    Frame kept s next where
  buckets := second.buckets.trans first.buckets
  blimit := second.blimit.trans first.blimit
  turn i := (second.turn i).trans (first.turn i)
  weight i held := (second.weight i trivial).trans (first.weight i held)

theorem frame_take (kept : ℕ → Prop) (s : DWRR) (k : ℕ) (pkt : Packet) : Frame kept s (s.take k pkt) :=
  ⟨rfl, rfl, update_kept PacketDWRR.turn _ (by rfl), fun i _ => update_kept PacketDWRR.weight _ (by rfl) i⟩

theorem frame_store (kept : ℕ → Prop) (s : DWRR) (k : ℕ) (pkt : Packet) : Frame kept s (s.store k pkt) :=
  ⟨rfl, rfl, update_kept PacketDWRR.turn _ (by rfl), fun i _ => update_kept PacketDWRR.weight _ (by rfl) i⟩

theorem frame_activate (s : DWRR) (k : ℕ) (pkt : Packet) (empty : s.queues k = []) :
    Frame (fun i => s.queues i ≠ []) s ((s.store k pkt).activate k pkt.saddr) := by
  have stored := frame_store (fun i => s.queues i ≠ []) s k pkt
  unfold activate
  refine ⟨rearr_buckets _, rearr_blimit _, fun i => ?_, fun i some => ?_⟩
  · rw [rearr_dwrr, ← stored.turn i]
    exact update_kept PacketDWRR.turn _ (by rfl) i
  · have other : i ≠ k := fun same => some (same ▸ empty)
    rw [rearr_dwrr, ← stored.weight i some]
    exact congrArg PacketDWRR.weight (Function.update_of_ne other _ _)

theorem Frame.idle {kept : ℕ → Prop} (frame : Frame kept s t) (k head : ℕ) : Frame kept s (t.idle k head) := by
  unfold DWRR.idle
  refine ⟨?_, ?_, fun i => ?_, fun i some => ?_⟩
  · rw [rearr_buckets]
    exact frame.buckets
  · rw [rearr_blimit]
    exact frame.blimit
  · rw [rearr_dwrr]
    exact frame.turn i
  · rw [rearr_dwrr]
    exact frame.weight i some

theorem Sound.arrive (sound : Sound s ring) (proper : 0 ≤ pkt.saddr) (size : 0 < pkt.size)
    (own : which s.buckets pkt = k) :
    ∃ ring', Sound (s.arrive k pkt) ring' ∧ (s.arrive k pkt).queues = Function.update s.queues k (s.queues k ++ [pkt]) ∧
      Frame (fun i => s.queues i ≠ []) s (s.arrive k pkt) ∧ (s.queues k ≠ [] → Undisturbed s (s.arrive k pkt)) ∧ (s.queues k = [] → Restarted (s.arrive k pkt)) := by
  have within : k < s.buckets := by
    have positive : (0 : ℤ) < s.buckets := Int.natCast_pos.mpr s.buckets.pos
    have bound := Int.tmod_lt_of_pos pkt.saddr positive
    unfold which index at own
    omega
  have counts := counts_store sound.counts within size
  have queues := queues_store s k pkt
  have before : (s.dwrr k).pkts = (s.queues k).length := sound.counts.counted k
  have count : ((s.store k pkt).dwrr k).pkts = (s.queues k).length + 1 := by
    simp [store, before]
  by_cases empty : s.queues k = []
  · have one : ((s.store k pkt).dwrr k).pkts = 1 := by rw [count, empty]; rfl
    have absent : k ∉ ring := fun member => (sound.circle.member k).mp member empty
    have result : s.arrive k pkt = (s.store k pkt).activate k pkt.saddr := if_pos one
    have grown : Circle { s.store k pkt with
        links := (s.links.activate k s.curr).1, curr := (s.links.activate k s.curr).2, flwcnt := s.flwcnt + 1,
        dwrr := Function.update (s.store k pkt).dwrr k
          { (s.store k pkt).dwrr k with deficitCounter := 0, weight := pkt.saddr, site := k } } (ring ++ [k]) := by
      refine ⟨sound.circle.linked.activate absent, fun i => ?_, ?_, fun i inside => ?_⟩
      · by_cases same : i = k
        · subst same
          simp [DWRR.queues, store, PacketQueue.enque]
        · simpa [DWRR.queues, store, same] using sound.circle.member i
      · simp [sound.circle.flwcnt]
      · by_cases same : i = k
        · subst same
          simpa [proper, store, which] using own
        · have old := (List.mem_append.mp inside).resolve_right (by simpa using same)
          simpa [store, same] using sound.circle.own i old
    have ranked := grown.rearr_ranked (by simp)
    refine ⟨ring ++ [k], ?_, ?_, result ▸ frame_activate s k pkt empty, fun some => absurd empty some, fun _ => Or.inl ?_⟩
    · rw [result]
      refine ⟨counts_congr counts (rearr_buckets _) ?_ (fun i => ?_) (fun i => ?_) (rearr_pktcnt _) (rearr_bytecnt _), grown.rearr,
        fun _ => ranked.1⟩
      · unfold activate
        rw [rearr_queues]
        exact funext (update_kept PacketDWRR.queue _ (by rfl))
      · unfold activate
        rw [rearr_dwrr]
        exact update_kept PacketDWRR.pkts _ (by rfl) i
      · unfold activate
        rw [rearr_dwrr]
        exact update_kept PacketDWRR.bcount _ (by rfl) i
    · rw [result, ← queues]
      unfold activate
      rw [rearr_queues]
      exact funext (update_kept PacketDWRR.queue _ (by rfl))
    · rw [result]
      exact ranked.2
  · have several : ((s.store k pkt).dwrr k).pkts ≠ 1 := by
      have positive := List.length_pos_of_ne_nil empty
      omega
    have result : s.arrive k pkt = s.store k pkt := if_neg several
    have weight : ∀ i ∈ ring, ((s.store k pkt).dwrr i).weight = (s.dwrr i).weight := fun i _ =>
      update_kept PacketDWRR.weight _ (by rfl) i
    refine ⟨ring, ?_, by rw [result, queues], result ▸ frame_store _ s k pkt, fun _ => by rw [result]; exact ⟨rfl, rfl⟩,
      fun none => absurd none empty⟩
    rw [result]
    refine ⟨counts, sound.circle.congr rfl rfl rfl rfl (fun i => ?_) weight, fun some => (sound.ranked some).congr rfl rfl weight⟩
    rw [queues]
    by_cases same : i = k
    · subst same
      simp [empty]
    · simp [same]

/-- Some flow is active when there are bytes. -/
theorem Circle.active (circle : Circle s ring) (counts : Counts s) (positive : s.bytecnt ≠ 0) : ring ≠ [] := by
  obtain ⟨k, some⟩ := counts.exists_some positive
  exact List.ne_nil_of_mem ((circle.member k).mpr some)

theorem Circle.getMaxflow (circle : Circle s ring) (some : ring ≠ []) : ∃ k ∈ ring, s.getMaxflow = Option.some k := by
  obtain ⟨head, t, atHead, rfl⟩ := circle.curr_some some
  have member := circle.linked.circle.argmax_mem fun i => (s.dwrr i).bcount
  refine ⟨_, member, ?_⟩
  rw [DWRR.getMaxflow, atHead, circle.flwcnt, Int.toNat_natCast]
  rfl

/-- One drop takes the head packet of an active flow. -/
theorem Sound.overflow (sound : Sound s ring) (positive : 0 < s.bytecnt) :
    ∃ next pkt k rest ring', s.overflow = some (next, pkt) ∧ s.queues k = pkt :: rest ∧ Sound next ring' ∧
      next.queues = Function.update s.queues k rest ∧ Frame (fun _ => True) s next ∧ next.pktcnt = s.pktcnt - 1 ∧
      (rest ≠ [] → Undisturbed s next) ∧ (rest = [] → Restarted next) := by
  have some := sound.circle.active sound.counts positive.ne'
  obtain ⟨head, t, atHead, _⟩ := sound.circle.curr_some some
  obtain ⟨k, member, best⟩ := sound.circle.getMaxflow some
  obtain ⟨pkt, rest, queue⟩ := List.exists_cons_of_ne_nil ((sound.circle.member k).mp member)
  have stored : (s.dwrr k).queue = pkt :: rest := queue
  have counts := counts_take sound.counts queue
  have queues := queues_take s k pkt
  rw [queue, List.tail_cons] at queues
  have count : ((s.take k pkt).dwrr k).pkts = rest.length := by
    rw [counts.counted, queues, Function.update_self]
  have weight : ∀ i ∈ ring, ((s.take k pkt).dwrr i).weight = (s.dwrr i).weight := fun i _ =>
    update_kept PacketDWRR.weight _ (by rfl) i
  by_cases empty : rest = []
  · subst empty
    have left := sound.circle.idle atHead member counts rfl rfl rfl queues weight
    have emptied : ((s.take k pkt).idle k head).queues = Function.update s.queues k [] := by
      rw [← queues]
      exact rearr_queues _
    refine ⟨(s.take k pkt).idle k head, pkt, k, [], ring.erase k, ?_, queue, left.1, emptied, (frame_take _ s k pkt).idle k head,
      rearr_pktcnt _, fun none => absurd rfl none, fun _ => ?_⟩
    · simp [DWRR.overflow, atHead, best, PacketQueue.deque, stored, count]
    · exact left.2.imp_right fun gone i => by simpa [gone] using left.1.circle.member i
  · have status : ∀ i, (s.take k pkt).queues i ≠ [] ↔ s.queues i ≠ [] := fun i => by
      rw [queues]
      by_cases same : i = k
      · subst same
        simp [empty, queue]
      · simp [same]
    refine ⟨s.take k pkt, pkt, k, rest, ring, ?_, queue, ⟨counts, sound.circle.congr rfl rfl rfl rfl status weight, fun some =>
      (sound.ranked some).congr rfl rfl weight⟩, queues, frame_take _ s k pkt, rfl, fun _ => ⟨rfl, rfl⟩,
      fun none => absurd none empty⟩
    simp [DWRR.overflow, atHead, best, PacketQueue.deque, stored, count, empty]

theorem Restarted.congr {next : DWRR} (restarted : Restarted s) (same : Undisturbed s next)
    (fewer : ∀ i, s.queues i = [] → next.queues i = []) : Restarted next :=
  restarted.imp same.2.trans fun none i => fewer i (none i)

/-- The overflow loop ends, within the limit. -/
theorem Sound.overflows {l : Ledger Packet} {n : ℕ} (sound : Sound s ring) (fuel : s.pktcnt ≤ n)
    (accounts : l.Accounts (which s.buckets) s.queues) :
    ∃ next dropped ring', overflows n s = some (next, dropped) ∧ Sound next ring' ∧ next.bytecnt ≤ s.blimit ∧
      Ledger.Accounts (which s.buckets) next.queues { l with dropped := l.dropped ++ dropped } ∧
      Frame (fun _ => True) s next ∧ (∀ i, s.queues i = [] → next.queues i = []) ∧
      (Undisturbed s next ∨ Restarted next ∧ ∃ i, s.queues i ≠ [] ∧ next.queues i = []) := by
  induction n generalizing s ring l with
  | zero =>
    have within : ¬ s.bytecnt > s.blimit := fun above => by
      have some := sound.circle.active sound.counts (by omega)
      obtain ⟨k, member⟩ := List.exists_mem_of_ne_nil _ some
      have positive := sound.counts.packets_pos ((sound.circle.member k).mp member)
      omega
    refine ⟨s, [], ring, if_neg within, sound, not_lt.mp within, by simpa using accounts, Frame.refl _ s, fun _ => id,
      Or.inl ⟨rfl, rfl⟩⟩
  | succ n ih =>
    by_cases above : s.bytecnt > s.blimit
    · obtain ⟨mid, pkt, k, rest, ring', taken, queue, after, queues, frame, fewer, calm, restart⟩ :=
        sound.overflow (by omega)
      have kept : ∀ i, s.queues i = [] → mid.queues i = [] := fun i none => by
        rw [queues, Function.update_of_ne]
        · exact none
        · rintro rfl
          rw [queue] at none
          cases none
      have left := accounts.discard queue
      rw [← queues, ← frame.buckets] at left
      obtain ⟨next, dropped, ring'', rest', sound', within, accounts', frame', fewer', table⟩ := ih after (by omega) left
      refine ⟨next, pkt :: dropped, ring'', ?_, sound', frame.blimit ▸ within, ?_, frame.trans frame',
        fun i none => fewer' i (kept i none), ?_⟩
      · rw [DWRR.overflows, if_pos above]
        simp [taken, rest']
      · simpa [frame.buckets] using accounts'
      · by_cases empty : rest = []
        · have gone : mid.queues k = [] := by rw [queues, Function.update_self, empty]
          refine Or.inr ⟨?_, k, by rw [queue]; simp, fewer' k gone⟩
          rcases table with same | other
          · exact (restart empty).congr same fewer'
          · exact other.1
        · have same := calm empty
          rcases table with later | ⟨restarted, i, was, gone⟩
          · exact Or.inl ⟨later.1.trans same.1, later.2.trans same.2⟩
          · exact Or.inr ⟨restarted, i, fun none => was (kept i none), gone⟩
    · refine ⟨s, [], ring, if_neg above, sound, not_lt.mp above, by simpa using accounts, Frame.refl _ s, fun _ => id,
        Or.inl ⟨rfl, rfl⟩⟩

/-- What the queue admits: no negative source address and no empty packet. -/
def Proper (pkt : Packet) : Prop := 0 ≤ pkt.saddr ∧ 0 < pkt.size

instance (pkt : Packet) : Decidable (Proper pkt) := inferInstanceAs (Decidable (_ ∧ _))

theorem Sound.enque {l : Ledger Packet} (sound : Sound s ring) (accounts : l.Accounts (which s.buckets) s.queues)
    (proper : Proper pkt) :
    ∃ next dropped ring', s.enque pkt = some (next, dropped) ∧ Sound next ring' ∧ next.bytecnt ≤ s.blimit ∧
      Ledger.Accounts (which s.buckets) next.queues (l.record [pkt] ⟨none, dropped⟩) ∧
      Frame (fun i => s.queues i ≠ []) s next ∧ (Undisturbed s next ∨
        Restarted next ∧ (s.queues (which s.buckets pkt) = [] ∨ ∃ i, s.queues i ≠ [] ∧ next.queues i = [])) := by
  obtain ⟨ring', after, queues, frame, calm, restart⟩ := sound.arrive proper.1 proper.2 rfl
  have index : 0 ≤ index s.buckets pkt.saddr := Int.tmod_nonneg _ proper.1
  have arrived : Ledger.Accounts (which (s.arrive (which s.buckets pkt) pkt).buckets)
      (s.arrive (which s.buckets pkt) pkt).queues { l with arrived := l.arrived ++ [pkt] } := by
    rw [queues, frame.buckets]
    exact accounts.arrive pkt
  obtain ⟨next, dropped, ring'', drops, sound', within, accounts', frame', fewer, table⟩ :=
    after.overflows (Int.self_le_toNat _) arrived
  refine ⟨next, dropped, ring'', by rw [DWRR.enque, if_pos index]; exact drops, sound', frame.blimit ▸ within, ?_,
    frame.trans frame', ?_⟩
  · simpa [frame.buckets, Ledger.record] using accounts'
  · by_cases empty : s.queues (which s.buckets pkt) = []
    · refine Or.inr ⟨?_, Or.inl empty⟩
      rcases table with same | other
      · exact (restart empty).congr same fewer
      · exact other.1
    · have same := calm empty
      rcases table with later | ⟨restarted, i, was, gone⟩
      · exact Or.inl ⟨later.1.trans same.1, later.2.trans same.2⟩
      · have other : ∀ none : s.queues i = [], i ≠ which s.buckets pkt := fun none own => empty (by rw [← own, none])
        refine Or.inr ⟨restarted, Or.inr ⟨i, fun none => ?_, gone⟩⟩
        rw [queues, Function.update_of_ne (other none)] at was
        exact was none

end Order

section Visits

variable {s : DWRR} {ring l r : List ℕ} {k : ℕ} {pkt : Packet} {rest : PacketQueue}

/-- The deficit and the turn of a flow are no part of the accounts. -/
theorem Sound.adjust (sound : Sound s ring) {q : PacketDWRR} (queue : q.queue = (s.dwrr k).queue)
    (pkts : q.pkts = (s.dwrr k).pkts) (bcount : q.bcount = (s.dwrr k).bcount) (weight : q.weight = (s.dwrr k).weight) :
    Sound { s with dwrr := Function.update s.dwrr k q } ring where
  counts := counts_congr sound.counts rfl (funext (update_kept PacketDWRR.queue _ queue)) (update_kept PacketDWRR.pkts _ pkts)
    (update_kept PacketDWRR.bcount _ bcount) rfl rfl
  circle := sound.circle.congr rfl rfl rfl rfl
    (fun i => by rw [queues, update_kept PacketDWRR.queue _ queue, ← queues]) fun i _ => update_kept PacketDWRR.weight _ weight i
  ranked some := (sound.ranked some).congr rfl rfl fun i _ => update_kept PacketDWRR.weight _ weight i

/-- The circle is read from another flow on. -/
theorem Sound.turn (sound : Sound s (l ++ r)) : Sound { s with curr := (r ++ l).head? } (r ++ l) where
  counts := counts_congr sound.counts rfl rfl (fun _ => rfl) (fun _ => rfl) rfl rfl
  circle := by
    refine ⟨⟨rfl, sound.circle.linked.circle.swap⟩, fun i => ?_, ?_, fun i member => ?_⟩
    · rw [List.mem_append, or_comm, ← List.mem_append]
      exact sound.circle.member i
    · rw [List.length_append, add_comm, ← List.length_append]
      exact sound.circle.flwcnt
    · exact sound.circle.own i (List.perm_append_comm.subset member)
  ranked some := by
    have ranked := sound.ranked fun none => some (by simp_all)
    refine ⟨ranked.perm.trans (List.perm_append_comm.map _), ranked.sorted, ?_⟩
    rw [List.length_append, add_comm, ← List.length_append]
    exact ranked.cerprique

/-- The walk finds the flow that the weight table points at. -/
theorem Sound.moveMaxweight (sound : Sound s ring) (some : ring ≠ []) : ∃ this l r, ring = l ++ this :: r ∧
    s.moveMaxweight = Option.some this ∧ s.weights[s.cerprique]? = Option.some (s.dwrr this).weight := by
  obtain ⟨head, t, atHead, rfl⟩ := sound.circle.curr_some some
  have ranked := sound.ranked some
  have within : s.cerprique < s.weights.length := by
    rw [ranked.perm.length_eq, List.length_map]
    exact ranked.cerprique
  have entry : s.weights[s.cerprique]? = Option.some s.weights[s.cerprique] := List.getElem?_eq_getElem within
  obtain ⟨i, member, same⟩ := List.mem_map.mp (ranked.perm.subset (List.getElem_mem within))
  obtain ⟨this, found⟩ : ∃ this, (head :: t).find? (fun i => (s.dwrr i).weight = s.weights[s.cerprique]) = Option.some this :=
    Option.isSome_iff_exists.mp (List.find?_isSome.mpr ⟨i, member, decide_eq_true same⟩)
  have weight : (s.dwrr this).weight = s.weights[s.cerprique] := by simpa using List.find?_some found
  obtain ⟨l, r, split⟩ := List.append_of_mem (List.mem_of_find?_eq_some found)
  refine ⟨this, l, r, split, ?_, by rw [entry, weight]⟩
  have walk := sound.circle.linked.circle.seek fun i => (s.dwrr i).weight = s.weights[s.cerprique]
  rw [found] at walk
  unfold DWRR.moveMaxweight
  rw [atHead, entry, sound.circle.flwcnt, Int.toNat_natCast]
  exact walk

/-- What a visit does, by the packet that it returns. -/
structure Visited (s next : DWRR) (v : Visit) : Prop where
  chosen : s.weights[s.cerprique]? = some (s.dwrr v.flow).weight
  active : s.queues v.flow ≠ []
  granted : v.granted = !(s.dwrr v.flow).turn
  buckets : next.buckets = s.buckets
  blimit : next.blimit = s.blimit
  turn : ∀ i, i ≠ v.flow → (next.dwrr i).turn = (s.dwrr i).turn
  weight : ∀ i, (next.dwrr i).weight = (s.dwrr i).weight
  passed : v.pkt = none → next.queues = s.queues ∧ (next.dwrr v.flow).turn = false ∧ next.weights = s.weights ∧
    next.cerprique = if s.cerprique + 1 ≥ s.flwcnt then 0 else s.cerprique + 1
  sent : ∀ pkt, v.pkt = some pkt → ∃ rest, s.queues v.flow = pkt :: rest ∧
    next.queues = Function.update s.queues v.flow rest ∧
    (rest ≠ [] → Undisturbed s next ∧ (next.dwrr v.flow).turn = true) ∧ (rest = [] → Restarted next)

theorem grant_eq (quantum : ℤ) (q : PacketDWRR) :
    ∃ deficit, grant quantum q = { q with deficitCounter := deficit, turn := true } := by
  unfold grant
  split_ifs with turn
  · exact ⟨q.deficitCounter, by rw [← turn]⟩
  · exact ⟨_, rfl⟩

theorem Sound.pass (sound : Sound s ring) (member : k ∈ ring) : Sound (s.pass k) ring := by
  have some : ring ≠ [] := List.ne_nil_of_mem member
  have adjusted := sound.adjust (k := k) (q := { s.dwrr k with turn := false }) rfl rfl rfl rfl
  refine ⟨counts_congr adjusted.counts rfl rfl (fun _ => rfl) (fun _ => rfl) rfl rfl,
    adjusted.circle.congr rfl rfl rfl rfl (fun _ => Iff.rfl) fun _ _ => rfl, fun _ => ?_⟩
  have ranked := adjusted.ranked some
  refine ⟨ranked.perm, ranked.sorted, ?_⟩
  have count := sound.circle.flwcnt
  show (if ((s.cerprique + 1 : ℕ) : ℤ) ≥ s.flwcnt then 0 else s.cerprique + 1) < ring.length
  split_ifs with wraps
  · exact List.length_pos_of_mem member
  · omega

theorem Sound.charge (sound : Sound s ring) (k : ℕ) (pkt : Packet) : Sound (s.charge k pkt) ring :=
  sound.adjust (by rfl) (by rfl) (by rfl) (by rfl)

theorem queues_charge (s : DWRR) (k : ℕ) (pkt : Packet) : (s.charge k pkt).queues = s.queues :=
  funext (update_kept PacketDWRR.queue _ (by rfl))

/-- The flow at `curr` sends its head packet, and leaves the circle when that was its last one. -/
theorem Sound.send (sound : Sound s ring) (atHead : s.curr = some k) (queue : s.queues k = pkt :: rest) :
    ∃ ring', Sound (s.send k pkt) ring' ∧ (s.send k pkt).queues = Function.update s.queues k rest ∧
      (s.send k pkt).buckets = s.buckets ∧ (s.send k pkt).blimit = s.blimit ∧
      (∀ i, ((s.send k pkt).dwrr i).weight = (s.dwrr i).weight) ∧
      (∀ i, i ≠ k → ((s.send k pkt).dwrr i).turn = (s.dwrr i).turn) ∧
      (rest ≠ [] → Undisturbed s (s.send k pkt) ∧ ((s.send k pkt).dwrr k).turn = (s.dwrr k).turn) ∧
      (rest = [] → Restarted (s.send k pkt)) := by
  have member : k ∈ ring := (sound.circle.member k).mpr (by simp [queue])
  have charged := sound.charge k pkt
  have queue' : (s.charge k pkt).queues k = pkt :: rest := by rw [queues_charge, queue]
  have counts := counts_take charged.counts queue'
  have queues : ((s.charge k pkt).take k pkt).queues = Function.update s.queues k rest := by
    rw [queues_take, queue', List.tail_cons, queues_charge]
  have count : (((s.charge k pkt).take k pkt).dwrr k).pkts = rest.length := by
    rw [counts.counted, queues, Function.update_self]
  have turn : ∀ i, (((s.charge k pkt).take k pkt).dwrr i).turn = (s.dwrr i).turn := fun i =>
    (update_kept PacketDWRR.turn _ (by rfl) i).trans (update_kept PacketDWRR.turn _ (by rfl) i)
  have weight : ∀ i, (((s.charge k pkt).take k pkt).dwrr i).weight = (s.dwrr i).weight := fun i =>
    (update_kept PacketDWRR.weight _ (by rfl) i).trans (update_kept PacketDWRR.weight _ (by rfl) i)
  by_cases empty : rest = []
  · subst empty
    have result : s.send k pkt = (((s.charge k pkt).take k pkt).clear k).idle k k := if_pos count
    have cleared : (((s.charge k pkt).take k pkt).clear k).queues = Function.update s.queues k [] := by
      rw [← queues]
      exact funext (update_kept PacketDWRR.queue _ (by rfl))
    have weight' : ∀ i, ((((s.charge k pkt).take k pkt).clear k).dwrr i).weight = (s.dwrr i).weight := fun i =>
      (update_kept PacketDWRR.weight _ (by rfl) i).trans (weight i)
    have left := sound.circle.idle (t := ((s.charge k pkt).take k pkt).clear k) atHead member
      (counts_congr counts rfl (cleared.trans queues.symm) (update_kept PacketDWRR.pkts _ (by rfl))
        (update_kept PacketDWRR.bcount _ (by rfl)) rfl rfl) rfl rfl rfl cleared fun i _ => weight' i
    rw [result]
    refine ⟨ring.erase k, left.1, ?_, rearr_buckets _, rearr_blimit _, fun i => ?_, fun i other => ?_, fun none => absurd rfl none,
      fun _ => left.2.imp_right fun gone i => by simpa [gone] using left.1.circle.member i⟩
    · rw [← cleared]
      exact rearr_queues _
    · unfold DWRR.idle
      rw [rearr_dwrr]
      exact weight' i
    · unfold DWRR.idle
      rw [rearr_dwrr, ← turn i]
      exact congrArg PacketDWRR.turn (Function.update_of_ne other _ _)
  · have several : (((s.charge k pkt).take k pkt).dwrr k).pkts ≠ 0 := by
      rw [count]
      simpa using empty
    have result : s.send k pkt = (s.charge k pkt).take k pkt := if_neg several
    have status : ∀ i, ((s.charge k pkt).take k pkt).queues i ≠ [] ↔ s.queues i ≠ [] := fun i => by
      rw [queues]
      by_cases same : i = k
      · subst same
        simp [empty, queue]
      · simp [same]
    rw [result]
    exact ⟨ring, ⟨counts, sound.circle.congr rfl rfl rfl rfl status fun i _ => weight i, fun some =>
      (sound.ranked some).congr rfl rfl fun i _ => weight i⟩, queues, rfl, rfl, weight, fun i _ => turn i,
      fun _ => ⟨⟨rfl, rfl⟩, turn k⟩, fun none => absurd none empty⟩

/-- A visit finds the flow that the table points at, and serves it or ends its turn. -/
theorem Sound.visit (sound : Sound s ring) (some : ring ≠ []) :
    ∃ next v ring', s.visit = Option.some (next, v) ∧ Sound next ring' ∧ Visited s next v := by
  obtain ⟨this, l, r, rfl, found, entry⟩ := sound.moveMaxweight some
  have moved : Sound { s with curr := Option.some this } (this :: (r ++ l)) := sound.turn
  have first := moved.circle.member this
  obtain ⟨pkt, rest, queue⟩ := List.exists_cons_of_ne_nil (first.mp List.mem_cons_self)
  obtain ⟨deficit, granted⟩ := grant_eq s.quantum (s.dwrr this)
  let u : DWRR := { s with
    curr := Option.some this, dwrr := Function.update s.dwrr this { s.dwrr this with deficitCounter := deficit, turn := true } }
  have ready : Sound u (this :: (r ++ l)) := moved.adjust rfl rfl rfl rfl
  have queues : u.queues = s.queues := funext (update_kept PacketDWRR.queue _ (by rfl))
  have weight : ∀ i, (u.dwrr i).weight = (s.dwrr i).weight := update_kept PacketDWRR.weight _ (by rfl)
  have turn : ∀ i, i ≠ this → (u.dwrr i).turn = (s.dwrr i).turn := fun i other =>
    congrArg PacketDWRR.turn (Function.update_of_ne other _ _)
  have own : (u.dwrr this).turn = true := by simp [u]
  have head : (u.dwrr this).queue.head? = Option.some pkt := by
    have stored : u.queues this = pkt :: rest := by rw [queues]; exact queue
    exact congrArg List.head? stored
  have start : s.visit = if (u.dwrr this).deficitCounter ≥ (pkt.size : ℤ) then
      Option.some (u.send this pkt, ⟨this, !(s.dwrr this).turn, Option.some pkt⟩)
      else Option.some (u.pass this, ⟨this, !(s.dwrr this).turn, none⟩) := by
    unfold DWRR.visit
    simp only [found, Option.bind_eq_bind, Option.bind_some, granted]
    change (u.dwrr this).queue.head?.bind _ = _
    rw [head]
    rfl
  rw [start]
  split_ifs with enough
  · obtain ⟨ring', sound', sent, buckets, blimit, weight', turn', calm, restart⟩ := ready.send rfl (by rw [queues]; exact queue)
    refine ⟨_, _, ring', rfl, sound', entry, first.mp List.mem_cons_self, rfl, buckets, blimit, fun i other =>
      (turn' i other).trans (turn i other), fun i => (weight' i).trans (weight i), fun silent => absurd silent nofun, ?_⟩
    rintro _ ⟨⟩
    exact ⟨rest, queue, by rw [sent, queues], fun left => ⟨(calm left).1, (calm left).2.trans own⟩, restart⟩
  · refine ⟨_, _, _, rfl, ready.pass List.mem_cons_self, entry, ?_, rfl, rfl, rfl, fun i other => ?_, fun i => ?_, fun _ => ?_, ?_⟩
    · exact first.mp List.mem_cons_self
    · exact (congrArg PacketDWRR.turn (Function.update_of_ne other _ _)).trans (turn i other)
    · exact (update_kept PacketDWRR.weight _ (by rfl) i).trans (weight i)
    · refine ⟨?_, ?_, rfl, rfl⟩
      · exact (funext (update_kept PacketDWRR.queue _ (by rfl))).trans queues
      · simp [DWRR.pass]
    · rintro _ ⟨⟩

end Visits

section Runs

variable {buckets : ℕ+} {blimit : ℕ} {s : DWRR} {ring : List ℕ} {l : Ledger Packet}

/-- A state between the turns of the loops, with what has become of the packets. -/
structure Holds (buckets : ℕ+) (blimit : ℕ) (s : DWRR) (ring : List ℕ) (l : Ledger Packet) : Prop where
  sound : Sound s ring
  size : s.buckets = buckets
  room : s.blimit = blimit
  limit : s.bytecnt ≤ blimit
  accounts : l.Accounts (which buckets) s.queues

theorem make_holds (buckets : ℕ+) (blimit : ℕ) : Holds buckets blimit (make buckets blimit) [] Ledger.empty where
  sound := by
    refine ⟨⟨fun i some => absurd rfl some, fun i pkt member => absurd member List.not_mem_nil, fun i => rfl, fun i => rfl, ?_, ?_⟩,
      ⟨Links.ring_nil _, fun i => by simp [queues, make], rfl, fun i member => absurd member List.not_mem_nil⟩,
      fun some => absurd rfl some⟩
    · simp [make]
    · simp [make]
  size := rfl
  room := rfl
  limit := Int.natCast_nonneg blimit
  accounts := Ledger.Accounts.empty _

theorem Holds.enque (holds : Holds buckets blimit s ring l) {pkt : Packet} (proper : Proper pkt) :
    ∃ next dropped ring', s.enque pkt = some (next, dropped) ∧
      Holds buckets blimit next ring' (l.record [pkt] ⟨none, dropped⟩) := by
  have accounts := holds.accounts
  rw [← holds.size] at accounts
  obtain ⟨next, dropped, ring', taken, sound, limit, accounts', frame, _⟩ := holds.sound.enque accounts proper
  rw [holds.size] at accounts'
  exact ⟨next, dropped, ring', taken, sound, frame.buckets.trans holds.size, frame.blimit.trans holds.room,
    holds.room ▸ limit, accounts'⟩

theorem Holds.visit (holds : Holds buckets blimit s ring l) (some : ring ≠ []) :
    ∃ next v ring', s.visit = Option.some (next, v) ∧ Visited s next v ∧ (v.pkt = none → ring' ≠ []) ∧
      Holds buckets blimit next ring' (l.record [] ⟨v.pkt, []⟩) := by
  obtain ⟨next, v, ring', taken, sound, visited⟩ := holds.sound.visit some
  have total := sound.counts.total_eq
  have before := holds.sound.counts.total_eq
  have limit := holds.limit
  rw [visited.buckets] at total
  refine ⟨next, v, ring', taken, visited, fun silent none => ?_, sound, visited.buckets.trans holds.size,
    visited.blimit.trans holds.room, ?_, ?_⟩
  · have active := visited.active
    rw [← (visited.passed silent).1, ← sound.circle.member, none] at active
    exact absurd active List.not_mem_nil
  · cases returned : v.pkt with
    | none =>
      rw [(visited.passed returned).1, ← before] at total
      omega
    | some pkt =>
      obtain ⟨rest, queue, queues, _⟩ := visited.sent pkt returned
      have less : ∑ i ∈ Finset.range s.buckets, bytes (next.queues i) ≤ ∑ i ∈ Finset.range s.buckets, bytes (s.queues i) :=
        Finset.sum_le_sum fun i _ => by
          rw [queues]
          by_cases own : i = v.flow
          · subst own
            rw [Function.update_self, queue, bytes_cons]
            omega
          · rw [Function.update_of_ne own]
      omega
  · cases returned : v.pkt with
    | none =>
      rw [(visited.passed returned).1]
      simpa [Ledger.record] using holds.accounts
    | some pkt =>
      obtain ⟨rest, queue, queues, _⟩ := visited.sent pkt returned
      rw [queues]
      simpa [Ledger.record] using holds.accounts.release queue

/-- The loop of `deque`, wherever it is stopped. -/
theorem Holds.loop (holds : Holds buckets blimit s ring l) (some : ring ≠ []) (rounds : ℕ) :
    ∃ next pkt ring', loop rounds s = Option.some (next, pkt) ∧
      Holds buckets blimit next ring' (l.record [] ⟨pkt, []⟩) := by
  have silent : ∀ l : Ledger Packet, l.record [] ⟨none, []⟩ = l := fun l => by simp [Ledger.record]
  induction rounds generalizing s ring with
  | zero => exact ⟨s, none, ring, rfl, by rwa [silent]⟩
  | succ rounds ih =>
    obtain ⟨mid, v, ring', taken, _, left, after⟩ := holds.visit some
    unfold DWRR.loop
    simp only [taken, Option.bind_eq_bind, Option.bind_some]
    cases returned : v.pkt with
    | none =>
      rw [returned, silent] at after
      exact ih after (left returned)
    | some pkt =>
      rw [returned] at after
      exact ⟨mid, Option.some pkt, ring', rfl, after⟩

def Call.Proper : Call → Prop
  | .enque pkt => DWRR.Proper pkt
  | .deque _ => True

instance : ∀ call : Call, Decidable call.Proper
  | .enque pkt => inferInstanceAs (Decidable (DWRR.Proper pkt))
  | .deque _ => isTrue trivial

theorem Holds.step (holds : Holds buckets blimit s ring l) (call : Call) (proper : call.Proper) :
    ∃ next out ring', s.step call = some (next, out) ∧ Holds buckets blimit next ring' (l.record call.arrivals out) := by
  cases call with
  | enque pkt =>
    obtain ⟨next, dropped, ring', taken, after⟩ := holds.enque proper
    exact ⟨next, ⟨none, dropped⟩, ring', by simp [DWRR.step, taken], after⟩
  | deque rounds =>
    by_cases empty : s.bytecnt = 0
    · have silent : l.record (Call.deque rounds).arrivals ⟨none, []⟩ = l := by simp [Ledger.record, Call.arrivals]
      exact ⟨s, ⟨none, []⟩, ring, by simp [DWRR.step, deque, empty], by rwa [silent]⟩
    · have some := holds.sound.circle.active holds.sound.counts empty
      obtain ⟨next, pkt, ring', taken, after⟩ := holds.loop some rounds
      exact ⟨next, ⟨pkt, []⟩, ring', by simp [DWRR.step, deque, empty, taken], after⟩

/-- A state `s` that the calls reach, with the answers to them. -/
structure Correct (buckets : ℕ+) (blimit : ℕ) (calls : List Call) (s : DWRR) (outs : List (Outcome Packet)) : Prop where
  bytecnt : s.bytecnt = ∑ i ∈ Finset.range buckets, bytes (s.queues i)
  pktcnt : s.pktcnt = ∑ i ∈ Finset.range buckets, ((s.queues i).length : ℤ)
  pkts : ∀ i, (s.dwrr i).pkts = (s.queues i).length
  bcount : ∀ i, (s.dwrr i).bcount = bytes (s.queues i)
  ring : ∃ ring, s.links.Ring s.curr ring ∧ (∀ i, i ∈ ring ↔ i < buckets ∧ s.queues i ≠ []) ∧ s.flwcnt = ring.length ∧
    (0 < s.flwcnt → s.weights.Perm (ring.map fun i => (s.dwrr i).weight) ∧ s.weights.Pairwise (· > ·) ∧
      s.cerprique < s.flwcnt)
  limit : s.bytecnt ≤ blimit
  accounts : (Ledger.ofRun Call.arrivals calls outs).Accounts (which buckets) s.queues

theorem run_holds (buckets : ℕ+) (blimit : ℕ) {calls : List Call} (proper : ∀ call ∈ calls, call.Proper) :
    ∃ s outs ring, machine.run (make buckets blimit) calls = some (s, outs) ∧
      Holds buckets blimit s ring (Ledger.ofRun Call.arrivals calls outs) := by
  have kept : ∀ s l call, (∃ ring, Holds buckets blimit s ring l) → call.Proper → ∃ next out,
      machine.step s call = some (next, out) ∧ ∃ ring, Holds buckets blimit next ring (l.record call.arrivals out) := by
    rintro s l call ⟨ring, holds⟩ proper
    obtain ⟨next, out, ring', taken, after⟩ := holds.step call proper
    exact ⟨next, out, taken, ring', after⟩
  obtain ⟨s, outs, run, ring, holds⟩ := Ledger.run_invariant kept ⟨[], make_holds buckets blimit⟩
    (Machine.along_of_forall proper)
  exact ⟨s, outs, ring, run, holds⟩

theorem deficit_queue (buckets : ℕ+) (blimit : ℕ) (calls : List Call) (proper : ∀ call ∈ calls, call.Proper) :
    ∃ s outs, machine.run (make buckets blimit) calls = some (s, outs) ∧ Correct buckets blimit calls s outs := by
  obtain ⟨s, outs, ring, run, holds⟩ := run_holds buckets blimit proper
  have counts := holds.sound.counts
  have circle := holds.sound.circle
  refine ⟨s, outs, run, ?_, ?_, counts.counted, counts.sized, ⟨ring, circle.linked, fun i => ?_, circle.flwcnt, fun positive => ?_⟩,
    holds.limit, holds.accounts⟩
  · rw [counts.total_eq, holds.size]
  · rw [counts.packets_sum, holds.size]
    exact Finset.sum_congr rfl fun i _ => counts.counted i
  · rw [circle.member]
    exact ⟨fun some => ⟨holds.size ▸ counts.inside i some, some⟩, And.right⟩
  · have some : ring ≠ [] := by
      rintro rfl
      rw [circle.flwcnt] at positive
      exact lt_irrefl 0 positive
    have ranked := holds.sound.ranked some
    exact ⟨ranked.perm, ranked.sorted, by rw [circle.flwcnt]; exact_mod_cast ranked.cerprique⟩

end Runs

def packet (uid : ℕ) (saddr : ℤ) (size : ℕ) : Packet := ⟨uid, saddr, 0, size⟩

/-- Three flows, an overflow, and a `deque` that passes over two of them. -/
def sampleCalls : List Call :=
  [.enque (packet 1 1 1500), .enque (packet 2 3 9000), .enque (packet 3 2 7000), .enque (packet 4 3 5000), .deque 9, .deque 9,
    .enque (packet 5 17 300), .deque 9, .deque 9]

theorem deficit_queue_sample : ∃ s outs, machine.run (make 16 20000) sampleCalls = some (s, outs) ∧
    Correct 16 20000 sampleCalls s outs :=
  deficit_queue 16 20000 sampleCalls (by decide)

end Ns2.DWRR
