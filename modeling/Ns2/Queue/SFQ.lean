import Ns2.Library.CircularList
import Ns2.Library.RoundRobin
import Ns2.Queue.PacketQueue

namespace Ns2

structure PacketSFQ where
  queue : PacketQueue
  pkts : ℤ
deriving DecidableEq

/-- `ready` means that `bucket` is allocated; `links` are the `prev` and `next`
of the buckets. -/
structure SFQ where
  maxqueue : ℤ
  buckets : ℕ
  ready : Bool
  bucket : ℕ → PacketSFQ
  links : Links ℕ
  active : Option ℕ
  occupied : ℤ
  fairshare : ℤ

namespace SFQ

open RoundRobin (Turn Turns)

inductive Call
  | enque (pkt : Packet)
  | deque
deriving DecidableEq

def Call.arrivals : Call → List Packet
  | .enque pkt => [pkt]
  | .deque => []

def make (maxqueue : ℤ) (buckets : ℕ) : SFQ where
  maxqueue := maxqueue
  buckets := buckets
  ready := false
  bucket := fun _ => ⟨[], 0⟩
  links := ⟨id, id⟩
  active := none
  occupied := 0
  fairshare := 0

def initsfq (s : SFQ) : SFQ :=
  { s with
    ready := true, bucket := fun _ => ⟨[], 0⟩, links := ⟨id, id⟩, active := none, occupied := 0,
    fairshare := s.maxqueue.tdiv s.buckets }

def prepare (s : SFQ) : SFQ := if s.ready then s else s.initsfq

def hash (pkt : Packet) : ℤ :=
  let k := pkt.saddr + pkt.daddr
  (k + (k >>> (8 : ℕ)) + ~~~(k >>> (4 : ℕ))).tmod (2 <<< 19 - 1)

/-- The remainder, which has the sign of the hash. -/
def index (buckets : ℕ) (pkt : Packet) : ℤ := (hash pkt).tmod buckets

def InRange (buckets : ℕ) (pkt : Packet) : Prop := 0 ≤ index buckets pkt ∧ index buckets pkt < buckets

instance (buckets : ℕ) (pkt : Packet) : Decidable (InRange buckets pkt) := inferInstanceAs (Decidable (_ ∧ _))

def which (buckets : ℕ) (pkt : Packet) : ℕ := (index buckets pkt).toNat

/-- `PacketSFQ::idle`: a bucket that is not the head stays linked. -/
def idle (L : Links ℕ) (this head : ℕ) : Links ℕ × Option ℕ :=
  if head = this then
    if L.next this = this then (L, none)
    else
      let L := L.unlink this
      (L, some (L.next this))
  else (L, some head)

/-- The part of `deque` that takes a packet from the active bucket. -/
def serve (s : SFQ) (this : ℕ) : SFQ × Option Packet :=
  let q := s.bucket this
  let pkt := q.queue.deque.1
  let q : PacketSFQ := { q with queue := q.queue.deque.2, pkts := q.pkts - 1 }
  let s := { s with bucket := Function.update s.bucket this q, occupied := s.occupied - 1 }
  if q.pkts = 0 then
    let idled := idle s.links this this
    ({ s with links := idled.1, active := idled.2 }, pkt)
  else ({ s with active := some (s.links.next this) }, pkt)

def deque (s : SFQ) : SFQ × Option Packet :=
  let s := s.prepare
  match s.active with
  | none => (s, none)
  | some this => s.serve this

/-- The drop condition of `enque` for a bucket with `used` packets. -/
def Refuses (s : SFQ) (used : ℤ) : Prop :=
  let left := s.maxqueue - s.occupied
  used ≥ left >>> (1 : ℕ) ∨ (left < s.buckets ∧ used > s.fairshare) ∨ left ≤ 0

instance (s : SFQ) (used : ℤ) : Decidable (s.Refuses used) := inferInstanceAs (Decidable (_ ∨ _ ∧ _ ∨ _))

def store (s : SFQ) (this : ℕ) (pkt : Packet) : SFQ :=
  let q := s.bucket this
  let q := { q with queue := q.queue.enque pkt, pkts := q.pkts + 1 }
  let s := { s with bucket := Function.update s.bucket this q, occupied := s.occupied + 1 }
  if q.pkts = 1 then
    let activated := s.links.activate this s.active
    { s with links := activated.1, active := activated.2 }
  else s

/-- The answer is the packets dropped. `none` is an access outside `bucket`. -/
def enque (s : SFQ) (pkt : Packet) : Option (SFQ × List Packet) :=
  let s := s.prepare
  if InRange s.buckets pkt then
    let this := which s.buckets pkt
    if s.Refuses (s.bucket this).pkts then some (s, [pkt]) else some (s.store this pkt, [])
  else none

def step (s : SFQ) : Call → Option (SFQ × Outcome Packet)
  | .enque pkt => (s.enque pkt).map fun next => (next.1, ⟨none, next.2⟩)
  | .deque => some (s.deque.1, ⟨s.deque.2, []⟩)

def machine : Machine SFQ Call (Outcome Packet) := ⟨step⟩

def queues (s : SFQ) (i : ℕ) : PacketQueue := (s.bucket i).queue

/-- `ring` is the circle of the buckets that hold packets. -/
structure WF (maxqueue : ℤ) (buckets : ℕ) (s : SFQ) (ring : List ℕ) : Prop where
  limit : s.maxqueue = maxqueue
  size : s.buckets = buckets
  fresh : s.ready = false → ring = []
  linked : s.links.Ring s.active ring
  member : ∀ i, i ∈ ring ↔ s.queues i ≠ []
  inside : ∀ i ∈ ring, i < buckets
  pkts : ∀ i, (s.bucket i).pkts = (s.queues i).length
  occupied : s.occupied = ∑ i ∈ Finset.range buckets, (s.bucket i).pkts
  bounded : s.occupied ≤ maxqueue

section Steps

variable {maxqueue : ℤ} {buckets : ℕ} {s : SFQ} {ring : List ℕ}

theorem make_wf (nonneg : 0 ≤ maxqueue) (buckets : ℕ) : WF maxqueue buckets (make maxqueue buckets) [] where
  limit := rfl
  size := rfl
  fresh _ := rfl
  linked := Links.ring_nil _
  member i := by simp [make, queues]
  inside i member := absurd member List.not_mem_nil
  pkts i := rfl
  occupied := by simp [make]
  bounded := nonneg

theorem WF.empty_queue (wf : WF maxqueue buckets s ring) {i : ℕ} (absent : i ∉ ring) : s.queues i = [] :=
  not_not.mp (mt (wf.member i).mpr absent)

theorem WF.queues_prepare (wf : WF maxqueue buckets s ring) : s.prepare.queues = s.queues := by
  unfold prepare
  split_ifs with ready
  · rfl
  · funext i
    have none := wf.fresh (Bool.eq_false_iff.mpr ready)
    exact (wf.empty_queue (by simp [none])).symm

theorem WF.prepare (wf : WF maxqueue buckets s ring) : WF maxqueue buckets s.prepare ring := by
  have same := wf.queues_prepare
  have nonneg : 0 ≤ s.occupied := by
    rw [wf.occupied]
    exact Finset.sum_nonneg fun i _ => by rw [wf.pkts]; omega
  unfold SFQ.prepare at same ⊢
  split_ifs with ready
  · exact wf
  · have none := wf.fresh (Bool.eq_false_iff.mpr ready)
    subst none
    exact ⟨wf.limit, wf.size, fun _ => rfl, Links.ring_nil _, fun i => by simp [queues, initsfq], wf.inside, fun i => rfl,
      by simp [initsfq], nonneg.trans wf.bounded⟩

theorem prepare_ready (s : SFQ) : s.prepare.ready = true := by
  unfold prepare
  split_ifs with ready
  · exact ready
  · rfl

/-- One bucket is written, and the circle changed to match it. -/
theorem WF.write (wf : WF maxqueue buckets s ring) (ready : s.ready = true) {k : ℕ} (within : k < buckets) {q : PacketSFQ}
    (counted : q.pkts = q.queue.length) {occupied : ℤ} (total : occupied = s.occupied - (s.bucket k).pkts + q.pkts)
    (room : occupied ≤ maxqueue) {links : Links ℕ} {active : Option ℕ} {ring' : List ℕ} (ringed : links.Ring active ring')
    (same : ∀ i, i ≠ k → (i ∈ ring' ↔ i ∈ ring)) (own : k ∈ ring' ↔ q.queue ≠ []) :
    WF maxqueue buckets { s with
      bucket := Function.update s.bucket k q, links := links, active := active, occupied := occupied } ring' where
  limit := wf.limit
  size := wf.size
  fresh unready := absurd (ready.symm.trans unready) (by simp)
  linked := ringed
  member i := by
    by_cases isK : i = k
    · subst isK
      simpa [queues] using own
    · simpa [queues, isK] using (same i isK).trans (wf.member i)
  inside i member := by
    by_cases isK : i = k
    · exact isK ▸ within
    · exact wf.inside i ((same i isK).mp member)
  pkts i := by
    by_cases isK : i = k
    · subst isK
      simpa [queues] using counted
    · simpa [queues, isK] using wf.pkts i
  occupied := by
    rw [sum_update within PacketSFQ.pkts, ← wf.occupied]
    exact total
  bounded := room

theorem queues_write (s : SFQ) (k : ℕ) (q : PacketSFQ) (links : Links ℕ) (active : Option ℕ) (occupied : ℤ) :
    queues { s with bucket := Function.update s.bucket k q, links := links, active := active, occupied := occupied } =
      Function.update s.queues k q.queue := by
  funext i
  exact Function.apply_update (fun _ => PacketSFQ.queue) s.bucket k q i

/-- The circle after the head bucket has been served. -/
def served (rest : PacketQueue) (a : ℕ) (t : List ℕ) : List ℕ := if rest = [] then t else t ++ [a]

theorem served_turn (rest : PacketQueue) (a : ℕ) (t : List ℕ) : Turn (a :: t) (some a) (served rest a t) := by
  unfold served
  split_ifs
  · exact Turn.leave a t
  · exact Turn.serve a t

theorem idle_self (L : Links ℕ) (a : ℕ) : idle L a a = L.idle a a := by
  unfold idle Links.idle
  rw [if_pos rfl, if_pos rfl]

theorem serve_last {a : ℕ} {p : Packet} (queue : s.queues a = [p]) (counted : (s.bucket a).pkts = 1) :
    s.serve a = ({ s with
      bucket := Function.update s.bucket a ⟨[], 0⟩, links := (s.links.idle a a).1, active := (s.links.idle a a).2,
      occupied := s.occupied - 1 }, some p) := by
  have stored : (s.bucket a).queue = [p] := queue
  simp [serve, PacketQueue.deque, stored, counted, idle_self]

theorem serve_next {a : ℕ} {p : Packet} {rest : PacketQueue} (queue : s.queues a = p :: rest) (some : rest ≠ [])
    (counted : (s.bucket a).pkts = (p :: rest).length) :
    s.serve a = ({ s with
      bucket := Function.update s.bucket a ⟨rest, rest.length⟩, links := s.links, active := Option.some (s.links.next a),
      occupied := s.occupied - 1 }, Option.some p) := by
  have stored : (s.bucket a).queue = p :: rest := queue
  simp [serve, PacketQueue.deque, stored, counted, some]

theorem WF.serve {a : ℕ} {t : List ℕ} (wf : WF maxqueue buckets s (a :: t)) (ready : s.ready = true) :
    ∃ p rest next, s.queues a = p :: rest ∧ s.serve a = (next, some p) ∧
      next.queues = Function.update s.queues a rest ∧ WF maxqueue buckets next (served rest a t) := by
  obtain ⟨p, rest, queue⟩ := List.exists_cons_of_ne_nil ((wf.member a).mp List.mem_cons_self)
  have counted : (s.bucket a).pkts = (p :: rest).length := by rw [wf.pkts, queue]
  have within := wf.inside a List.mem_cons_self
  have notTail := (List.nodup_cons.mp wf.linked.circle.nodup).1
  have fewer : s.occupied - 1 = s.occupied - (s.bucket a).pkts + rest.length := by
    rw [counted, List.length_cons]
    omega
  have room : s.occupied - 1 ≤ maxqueue := by
    have bounded := wf.bounded
    omega
  by_cases empty : rest = []
  · subst empty
    refine ⟨p, [], _, queue, serve_last queue counted, queues_write .., ?_⟩
    rw [served, if_pos rfl]
    refine wf.write ready within rfl fewer room wf.linked.circle.idle_head (fun i other => ?_) ?_
    · simp [other]
    · simp [notTail]
  · refine ⟨p, rest, _, queue, serve_next queue empty counted, queues_write .., ?_⟩
    rw [served, if_neg empty]
    refine wf.write ready within rfl fewer room ⟨wf.linked.circle.head_turn.symm, wf.linked.circle.turn⟩
      (fun i other => ?_) ?_
    · simp [other]
    · simp [empty]

/-- A call of `deque` finds nothing, or serves the bucket at the head of the circle. -/
theorem WF.deque (wf : WF maxqueue buckets s ring) :
    (ring = [] ∧ s.deque = (s.prepare, none)) ∨ ∃ a t p rest next, ring = a :: t ∧ s.queues a = p :: rest ∧
      s.deque = (next, some p) ∧ next.queues = Function.update s.queues a rest ∧
      WF maxqueue buckets next (served rest a t) := by
  have prepared := wf.prepare
  unfold SFQ.deque
  cases ring with
  | nil =>
    have head : s.prepare.active = none := prepared.linked.head
    simp [head]
  | cons a t =>
    have head : s.prepare.active = some a := prepared.linked.head
    obtain ⟨p, rest, next, queue, taken, left, after⟩ := prepared.serve (prepare_ready s)
    rw [wf.queues_prepare] at queue left
    exact Or.inr ⟨a, t, p, rest, next, rfl, queue, by simp only [head, taken], left, after⟩

theorem WF.store (wf : WF maxqueue buckets s ring) (ready : s.ready = true) {k : ℕ} (within : k < buckets)
    (room : s.occupied < maxqueue) (pkt : Packet) :
    ∃ ring', WF maxqueue buckets (s.store k pkt) ring' ∧ Turn ring none ring' ∧
      (s.store k pkt).queues = Function.update s.queues k (s.queues k ++ [pkt]) := by
  have counted := wf.pkts k
  have longer : (s.bucket k).pkts + 1 = ((s.queues k).enque pkt).length := by
    rw [counted, PacketQueue.enque, List.length_append, List.length_singleton]
    rfl
  have more : s.occupied + 1 = s.occupied - (s.bucket k).pkts + ((s.bucket k).pkts + 1) := by omega
  unfold SFQ.store
  by_cases empty : s.queues k = []
  · have absent : k ∉ ring := fun member => (wf.member k).mp member empty
    have one : (s.bucket k).pkts + 1 = 1 := by rw [counted, empty]; rfl
    simp only [one, if_true]
    refine ⟨ring ++ [k], wf.write ready within (longer.symm.trans one).symm (by simpa [one] using more) room
      (wf.linked.activate absent) (fun i other => ?_) ?_, Turn.enter absent, queues_write ..⟩
    · simp [other]
    · simp [PacketQueue.enque]
  · have member : k ∈ ring := (wf.member k).mpr empty
    have several : (s.bucket k).pkts + 1 ≠ 1 := by
      have positive := List.length_pos_of_ne_nil empty
      omega
    simp only [several, if_false]
    refine ⟨ring, wf.write ready within longer more room wf.linked (fun i other => Iff.rfl) ?_, Turn.stay ring,
      queues_write ..⟩
    simp [member, PacketQueue.enque]

/-- The state, with the circle of its buckets and the packets it has seen. -/
structure Holds (maxqueue : ℤ) (buckets : ℕ) (s : SFQ) (ring : List ℕ) (l : Ledger Packet) : Prop where
  wf : WF maxqueue buckets s ring
  accounts : l.Accounts (which buckets) s.queues

def Call.InRange (buckets : ℕ) (call : Call) : Prop := ∀ pkt ∈ call.arrivals, SFQ.InRange buckets pkt

instance (buckets : ℕ) (call : Call) : Decidable (call.InRange buckets) :=
  inferInstanceAs (Decidable (∀ pkt ∈ call.arrivals, _))

/-- The bucket that a call serves. -/
def service (buckets : ℕ) (out : Outcome Packet) : Option ℕ := out.returned.map (which buckets)

theorem Holds.step {l : Ledger Packet} (holds : Holds maxqueue buckets s ring l) (call : Call)
    (inRange : call.InRange buckets) : ∃ next out ring', s.step call = some (next, out) ∧
      Holds maxqueue buckets next ring' (l.record call.arrivals out) ∧
      Turn ring (service buckets out) ring' ∧ out.dropped.length ≤ 1 := by
  have prepared := holds.wf.prepare
  have same := holds.wf.queues_prepare
  cases call with
  | enque pkt =>
    have size := prepared.size
    have proper : SFQ.InRange buckets pkt := inRange pkt List.mem_cons_self
    by_cases refused : s.prepare.Refuses (s.prepare.bucket (which buckets pkt)).pkts
    · refine ⟨s.prepare, ⟨none, [pkt]⟩, ring, ?_, ⟨prepared, ?_⟩, Turn.stay ring, le_rfl⟩
      · simp [SFQ.step, SFQ.enque, size, proper, refused]
      · rw [same]
        simpa [Ledger.record, Call.arrivals] using holds.accounts.refuse pkt
    · have within : which buckets pkt < buckets := by
        unfold which
        have low := proper.1
        have high := proper.2
        omega
      have room : s.prepare.occupied < maxqueue := by
        have left := (not_or.mp (not_or.mp refused).2).2
        rw [prepared.limit] at left
        omega
      obtain ⟨ring', after, turn, left⟩ := prepared.store (prepare_ready s) within room pkt
      refine ⟨s.prepare.store (which buckets pkt) pkt, ⟨none, []⟩, ring', ?_, ⟨after, ?_⟩, turn, Nat.zero_le 1⟩
      · simp [SFQ.step, SFQ.enque, size, proper, refused]
      · rw [left, same]
        simpa [Ledger.record, Call.arrivals] using holds.accounts.arrive pkt
  | deque =>
    rcases holds.wf.deque with ⟨rfl, idle⟩ | ⟨a, t, p, rest, next, rfl, queue, taken, left, after⟩
    · refine ⟨s.prepare, ⟨none, []⟩, [], ?_, ⟨prepared, ?_⟩, Turn.stay [], Nat.zero_le 1⟩
      · simp [SFQ.step, idle]
      · rw [same]
        simpa [Ledger.record, Call.arrivals] using holds.accounts
    · have own : which buckets p = a := holds.accounts.key_eq (queue ▸ List.mem_cons_self)
      refine ⟨next, ⟨some p, []⟩, served rest a t, ?_, ⟨after, ?_⟩, ?_, Nat.zero_le 1⟩
      · simp [SFQ.step, taken]
      · rw [left]
        simpa [Ledger.record, Call.arrivals] using holds.accounts.release queue
      · simpa [service, own] using served_turn rest a t

theorem Holds.run {l : Ledger Packet} (holds : Holds maxqueue buckets s ring l) {calls : List Call}
    (inRange : ∀ call ∈ calls, call.InRange buckets) : ∃ last outs ring', machine.run s calls = some (last, outs) ∧
      Holds maxqueue buckets last ring' (l.append (Ledger.ofRun Call.arrivals calls outs)) := by
  have kept : ∀ s l call, (∃ ring, Holds maxqueue buckets s ring l) → call.InRange buckets → ∃ next out,
      machine.step s call = some (next, out) ∧ ∃ ring, Holds maxqueue buckets next ring (l.record call.arrivals out) := by
    rintro s l call ⟨ring, holds⟩ proper
    obtain ⟨next, out, ring', taken, after, _⟩ := holds.step call proper
    exact ⟨next, out, taken, ring', after⟩
  obtain ⟨last, outs, run, ring', after⟩ := Ledger.run_invariant kept ⟨ring, holds⟩ (Machine.along_of_forall inRange)
  exact ⟨last, outs, ring', run, after⟩

/-- A run between two states is a run of turns of the circle. -/
theorem Holds.turns {Q : SFQ → Prop} {P : List ℕ → Prop} (means : ∀ s ring, WF maxqueue buckets s ring → Q s → P ring)
    {l : Ledger Packet} (holds : Holds maxqueue buckets s ring l) {calls : List Call} {call : Call}
    (inRange : ∀ call ∈ calls, call.InRange buckets) (along : machine.Along (fun s _ => Q s) s (calls ++ [call]))
    {last : SFQ} {outs : List (Outcome Packet)} (run : machine.run s calls = some (last, outs)) :
    ∃ ring' l', Turns P ring (outs.map (service buckets)) ring' ∧ Holds maxqueue buckets last ring' l' := by
  induction calls generalizing s ring l outs with
  | nil =>
    cases Option.some.inj run
    exact ⟨ring, l, Turns.nil (means _ ring holds.wf along.head), holds⟩
  | cons first calls ih =>
    obtain ⟨proper, later⟩ := List.forall_mem_cons.mp inRange
    obtain ⟨next, out, mid, taken, after, turn, _⟩ := holds.step first proper
    have step : machine.step s first = some (next, out) := taken
    rw [Machine.run_cons step] at run
    obtain ⟨rest, finished, joined⟩ := Option.map_eq_some_iff.mp run
    cases joined
    obtain ⟨ring', l', turns, ended⟩ := ih after later (along.tail step) finished
    exact ⟨ring', l', Turns.cons (means s ring holds.wf along.head) turn turns, ended⟩

end Steps

/-- Bucket `b` is served in `s`, then come the calls `mid`, which do not serve it,
and then it is served again. -/
structure Round (s first second : SFQ) (b : ℕ) (mid : List Call) (outs : List (Outcome Packet)) : Prop where
  opens : ∃ p, s.deque = (first, some p) ∧ which s.buckets p = b
  run : machine.run first mid = some (second, outs)
  apart : some b ∉ outs.map (service s.buckets)
  closes : ∃ p, second.deque.2 = some p ∧ which s.buckets p = b

/-- Bucket `c` holds packets before each of the calls `mid` and before the `deque` after them. -/
def Stays (c : ℕ) (first : SFQ) (mid : List Call) : Prop :=
  machine.Along (fun s _ => s.queues c ≠ []) first (mid ++ [.deque])

section Fairness

variable {maxqueue : ℤ} {buckets : ℕ} {s first second : SFQ} {ring : List ℕ} {l : Ledger Packet} {b c : ℕ}
  {mid : List Call} {outs : List (Outcome Packet)}

/-- The circles at the two ends of a round. -/
theorem Round.ends (holds : Holds maxqueue buckets s ring l) (round : Round s first second b mid outs) :
    ∃ ring' l', Holds maxqueue buckets first ring' l' ∧ Turn ring (some b) ring' := by
  obtain ⟨p, opened, own⟩ := round.opens
  obtain ⟨next, out, ring', taken, after, turn, _⟩ := holds.step .deque (by simp [Call.InRange, Call.arrivals])
  have step : (first, (⟨some p, []⟩ : Outcome Packet)) = (next, out) := by
    simpa [SFQ.step, opened] using taken
  cases step
  refine ⟨ring', _, after, ?_⟩
  rw [holds.wf.size] at own
  simpa [service, own] using turn

theorem Round.last (round : Round s first second b mid outs) (size : s.buckets = buckets)
    (holds : Holds maxqueue buckets second ring l) : ∃ t, ring = b :: t := by
  obtain ⟨p, closed, own⟩ := round.closes
  rcases holds.wf.deque with ⟨_, idle⟩ | ⟨a, t, p', rest, next, rfl, queue, taken, _⟩
  · simp [idle] at closed
  · rw [taken] at closed
    cases Option.some.inj closed
    have same := holds.accounts.key_eq (queue ▸ List.mem_cons_self)
    exact ⟨t, by rw [← same, ← own, size]⟩

theorem Round.served (holds : Holds maxqueue buckets s ring l) (round : Round s first second b mid outs)
    (inRange : ∀ call ∈ mid, call.InRange buckets) (apart : c ≠ b) (stays : Stays c first mid) :
    some c ∈ outs.map (service buckets) := by
  obtain ⟨ring', l', after, turn⟩ := round.ends holds
  have distinct := turn.nodup holds.wf.linked.circle.nodup
  have absent := round.apart
  rw [holds.wf.size] at absent
  obtain ⟨end', l'', turns, ended⟩ := after.turns (fun s ring wf inside => (wf.member c).mpr inside) inRange stays round.run
  obtain ⟨t, rfl⟩ := round.last holds.wf.size ended
  exact turns.between distinct absent (turn.after_service holds.wf.linked.circle.nodup turns.start apart)

theorem Round.served_once (holds : Holds maxqueue buckets s ring l) (round : Round s first second b mid outs)
    (inRange : ∀ call ∈ mid, call.InRange buckets) (apart : c ≠ b) (stays : Stays c first mid)
    (own : Stays b first mid) : (outs.map (service buckets)).count (some c) = 1 := by
  obtain ⟨ring', l', after, turn⟩ := round.ends holds
  have distinct := turn.nodup holds.wf.linked.circle.nodup
  have absent := round.apart
  rw [holds.wf.size] at absent
  obtain ⟨end', l'', turns, ended⟩ := after.turns (Q := fun s => s.queues b ≠ [] ∧ s.queues c ≠ [])
    (P := fun circle => b ∈ circle ∧ c ∈ circle) (fun s ring wf inside => ⟨(wf.member b).mpr inside.1, (wf.member c).mpr inside.2⟩) inRange (own.and stays) round.run
  obtain ⟨t, rfl⟩ := round.last holds.wf.size ended
  exact turns.once distinct absent (turn.after_service holds.wf.linked.circle.nodup turns.start.2 apart)

theorem enque_dropped {pkt : Packet} {next : SFQ} {dropped : List Packet} (taken : s.enque pkt = some (next, dropped)) :
    dropped.length ≤ 1 := by
  simp only [enque] at taken
  split_ifs at taken with proper refused
  · cases Option.some.inj taken
    exact le_rfl
  · cases Option.some.inj taken
    exact Nat.zero_le 1

/-- A state `s` that the calls reach, with the answers to them. -/
structure Fair (maxqueue : ℤ) (buckets : ℕ) (calls : List Call) (s : SFQ) (outs : List (Outcome Packet)) : Prop where
  occupied : s.occupied = ∑ i ∈ Finset.range buckets, (s.bucket i).pkts
  pkts : ∀ i, (s.bucket i).pkts = (s.queues i).length
  limit : s.occupied ≤ maxqueue
  ring : ∃ ring, s.links.Ring s.active ring ∧ ∀ i, i ∈ ring ↔ i < buckets ∧ s.queues i ≠ []
  accounts : (Ledger.ofRun Call.arrivals calls outs).Accounts (which buckets) s.queues
  drops : ∀ pkt next dropped, s.enque pkt = some (next, dropped) → dropped.length ≤ 1
  turns : ∀ first second b c mid outs, Round s first second b mid outs → (∀ call ∈ mid, call.InRange buckets) →
    c ≠ b → Stays c first mid → some c ∈ outs.map (service buckets) ∧
      (Stays b first mid → (outs.map (service buckets)).count (some c) = 1)

theorem fair_queue (nonneg : 0 ≤ maxqueue) (buckets : ℕ) (calls : List Call)
    (inRange : ∀ call ∈ calls, call.InRange buckets) :
    ∃ s outs, machine.run (make maxqueue buckets) calls = some (s, outs) ∧ Fair maxqueue buckets calls s outs := by
  have start : Holds maxqueue buckets (make maxqueue buckets) [] Ledger.empty :=
    ⟨make_wf nonneg buckets, Ledger.Accounts.empty _⟩
  obtain ⟨s, outs, ring, run, holds⟩ := start.run inRange
  refine ⟨s, outs, run, holds.wf.occupied, holds.wf.pkts, holds.wf.bounded, ⟨ring, holds.wf.linked, fun i => ?_⟩,
    holds.accounts, fun pkt next dropped => enque_dropped, fun first second b c mid outs round proper apart stays => ?_⟩
  · rw [← holds.wf.member]
    exact ⟨fun member => ⟨holds.wf.inside i member, member⟩, And.right⟩
  · exact ⟨round.served holds proper apart stays, round.served_once holds proper apart stays⟩

end Fairness

def packet (uid : ℕ) (saddr : ℤ) : Packet := ⟨uid, saddr, 0, 1000⟩

/-- Bucket 0 gets one packet and bucket 1 three. -/
def sampleCalls : List Call := [.enque (packet 1 1), .enque (packet 2 2), .enque (packet 3 2), .enque (packet 4 2)]

theorem fair_queue_sample : ∃ s outs, machine.run (make 40 16) (sampleCalls ++ [.deque, .deque]) = some (s, outs) ∧
    Fair 40 16 (sampleCalls ++ [.deque, .deque]) s outs :=
  fair_queue (by decide) 16 _ (by decide)

/-- Bucket 0 is emptied by its service and comes back behind bucket 1. -/
theorem served_twice : ∃ s outs first second mid answers, machine.run (make 40 16) sampleCalls = some (s, outs) ∧
    Round s first second 0 mid answers ∧ Stays 1 first mid ∧ (answers.map (service 16)).count (some 1) = 2 :=
  ⟨_, _, _, _, [.deque, .enque (packet 5 1), .deque], _, rfl, ⟨⟨_, rfl, by decide⟩, rfl, by decide, ⟨_, rfl, by decide⟩⟩,
    by unfold Stays; decide, by decide⟩

end SFQ

end Ns2
