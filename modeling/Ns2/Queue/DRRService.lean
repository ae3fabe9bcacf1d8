import Mathlib.Tactic.Ring
import Ns2.Library.Machine
import Ns2.Library.RoundRobin
import Ns2.Queue.DRRAccounts

namespace Ns2.DRR

def Event.Proper (maxpkt : ℕ) : Event → Prop
  | .enque pkt => 0 < pkt.size ∧ pkt.size ≤ maxpkt
  | .visit => True

instance Event.decidableProper (maxpkt : ℕ) : ∀ e : Event, Decidable (e.Proper maxpkt)
  | .enque _ => inferInstanceAs (Decidable (_ ∧ _))
  | .visit => isTrue trivial

section Runs

variable {s next : DRR} {ring l r : List ℕ} {quantum : ℤ} {maxpkt i : ℕ} {v : Visit} {head : Packet} {rest : PacketQueue}

theorem make_sound (buckets : ℕ+) (blimit quantum : ℤ) (mask : Bool) (maxpkt : ℕ) :
    Sound quantum maxpkt (make buckets blimit quantum mask) [] :=
  ⟨tally_empty buckets, activeRing_empty _, fun _ _ member => absurd member List.not_mem_nil, rfl⟩

/-- The visit that is made, whatever the circle. -/
theorem Sound.visited (sound : Sound quantum maxpkt s ring) (taken : s.visit = some (next, v)) :
    ∃ head rest ring', Visited s next v head rest ∧ Sound quantum maxpkt next ring' := by
  cases ring with
  | nil =>
    have none : s.curr = none := sound.active.linked.head
    rw [DRR.visit, none] at taken
    cases taken
  | cons this t =>
    obtain ⟨next', v', head, rest, ring', made, _, visited, sound', _⟩ := sound.visit
    cases Option.some.inj (taken.symm.trans made)
    exact ⟨head, rest, ring', visited, sound'⟩

theorem Sound.event (sound : Sound quantum maxpkt s ring) {e : Event} (proper : e.Proper maxpkt) {out : Option Visit}
    (taken : events.step s e = some (next, out)) : ∃ ring', Sound quantum maxpkt next ring' := by
  cases e with
  | enque pkt =>
    obtain ⟨⟨mid, dropped⟩, enqued, same⟩ := Option.map_eq_some_iff.mp taken
    cases same
    obtain ⟨ring', sound', _⟩ := sound.enque proper enqued
    exact ⟨ring', sound'⟩
  | visit =>
    obtain ⟨⟨mid, v⟩, made, same⟩ := Option.map_eq_some_iff.mp taken
    cases same
    obtain ⟨_, _, ring', _, sound'⟩ := sound.visited made
    exact ⟨ring', sound'⟩

/-- What the flow `i` still needs before it can send its head packet, in visits. -/
def short (s : DRR) (i : ℕ) : ℕ :=
  ((((s.queues i).head?.map Packet.size).getD 0 : ℕ) - (s.drr i).deficitCounter).toNat + if (s.drr i).turn then 1 else 0

theorem Visited.short_own (visited : Visited s next v head rest) (positive : 0 < s.quantum) (silent : v.pkt = none) :
    next.short v.flow < s.short v.flow := by
  obtain ⟨less, queues, turn, deficit⟩ := visited.passed silent
  unfold short
  rw [queues, turn, deficit, visited.queue]
  rw [granted_eq] at less ⊢
  simp only [List.head?_cons, Option.map_some, Option.getD_some, Bool.false_eq_true, if_false]
  split_ifs at less ⊢ <;> omega

theorem Visited.short_other (visited : Visited s next v head rest) (silent : v.pkt = none) (other : i ≠ v.flow) :
    next.short i = s.short i := by
  obtain ⟨_, queues, _, _⟩ := visited.passed silent
  unfold short
  rw [queues, visited.turn i other, visited.deficit i other]

/-- Where some flow is active, `deque` returns the head packet of a flow. -/
theorem Sound.returns (sound : Sound quantum maxpkt s (l ++ i :: r)) (positive : 0 < quantum) :
    ∃ rounds next pkt, loop rounds s = some (next, some pkt) ∧ ∃ k rest, s.queues k = pkt :: rest := by
  induction measure : (l ++ i :: r).length * s.short i + l.length using Nat.strong_induction_on generalizing s l r with
  | _ n ih =>
    obtain ⟨this, t, split⟩ := List.exists_cons_of_ne_nil (show l ++ i :: r ≠ [] by simp)
    rw [split] at sound
    obtain ⟨mid, v, head, rest, ring', taken, rfl, visited, sound', turned⟩ := sound.visit
    cases returned : v.pkt with
    | some pkt =>
      obtain ⟨rfl, _⟩ := visited.sent pkt returned
      exact ⟨1, mid, pkt, by simp [loop, taken, returned], v.flow, rest, visited.queue⟩
    | none =>
      obtain ⟨_, queues, _, _⟩ := visited.passed returned
      rw [turned returned] at sound'
      obtain ⟨l', r', split', nearer, within⟩ : ∃ l' r', t ++ [v.flow] = l' ++ i :: r' ∧
          (l.length = 0 ∧ mid.short i < s.short i ∨ mid.short i ≤ s.short i ∧ l'.length < l.length) ∧ l'.length < (l ++ i :: r).length := by
        cases l with
        | nil =>
          obtain ⟨rfl, rfl⟩ := List.cons.inj split
          exact ⟨r, [], rfl, Or.inl ⟨rfl, visited.short_own (sound.quantum ▸ positive) returned⟩, by simp⟩
        | cons a l =>
          obtain ⟨rfl, rfl⟩ := List.cons.inj split
          have other : i ≠ v.flow := by
            rintro rfl
            exact (List.nodup_cons.mp sound.active.nodup).1 (by simp)
          refine ⟨l, r ++ [v.flow], by simp, Or.inr ⟨(visited.short_other returned other).le, by simp⟩, ?_⟩
          simp only [List.length_append, List.length_cons]
          omega
      have less := RoundRobin.lap_lt within nearer
      have length : (l ++ i :: r).length = (l' ++ i :: r').length := by
        rw [split, ← split', List.length_append, List.length_cons, List.length_singleton]
      rw [measure, length] at less
      rw [split'] at sound'
      obtain ⟨rounds, next, pkt, rest, found⟩ := ih _ less sound' rfl
      rw [queues] at found
      exact ⟨rounds + 1, next, pkt, by simp [loop, taken, returned, rest], found⟩

end Runs

/-- The sum of `g` over the visits to flow `f`. -/
def tally (g : Visit → ℤ) (f : ℕ) (visits : List (Option Visit)) : ℤ :=
  (visits.map fun visit => visit.elim 0 fun v => if v.flow = f then g v else 0).sum

/-- The quanta that flow `f` got. -/
def quanta : ℕ → List (Option Visit) → ℤ := tally fun v => if v.granted then 1 else 0

/-- The visits to flow `f` that came to an end. -/
def completed : ℕ → List (Option Visit) → ℤ := tally fun v => if v.pkt = none then 1 else 0

/-- The bytes that flow `f` sent. -/
def sent : ℕ → List (Option Visit) → ℤ := tally fun v => ((v.pkt.map Packet.size).getD 0 : ℕ)

/-- After its completed visits flow `f` has got a quantum for each, and sent what they pay for within a packet. -/
structure Served (quantum : ℤ) (maxpkt f : ℕ) (visits : List (Option Visit)) : Prop where
  quanta : quanta f visits = completed f visits
  lower : completed f visits * quantum - maxpkt < sent f visits
  upper : sent f visits ≤ completed f visits * quantum

instance (quantum : ℤ) (maxpkt f : ℕ) (visits : List (Option Visit)) : Decidable (Served quantum maxpkt f visits) :=
  decidable_of_iff (DRR.quanta f visits = completed f visits ∧ completed f visits * quantum - maxpkt < DRR.sent f visits ∧
    DRR.sent f visits ≤ completed f visits * quantum)
    ⟨fun all => ⟨all.1, all.2.1, all.2.2⟩, fun served => ⟨served.quanta, served.lower, served.upper⟩⟩

/-- In `s` flow `f` is empty. The packet `pkt` activates it, it stays active through the events `mid`, and then a visit to it ends. -/
structure Period (maxpkt : ℕ) (s : DRR) (f : ℕ) (pkt : Packet) (mid : List Event) (visits : List (Option Visit)) : Prop where
  idle : s.queues f = []
  proper : ∀ e ∈ .enque pkt :: mid, e.Proper maxpkt
  ran : ∃ first dropped last earlier w, s.enque pkt = some (first, dropped) ∧
    events.Along (fun s _ => s.queues f ≠ []) first (mid ++ [.visit]) ∧
    events.run first (mid ++ [.visit]) = some (last, visits) ∧ visits = earlier ++ [some w] ∧ w.flow = f ∧ w.pkt = none

section Periods

variable {s next : DRR} {ring : List ℕ} {quantum : ℤ} {maxpkt f : ℕ} {v : Visit} {head : Packet} {rest : PacketQueue} {stale : Bool}
  {visits : List (Option Visit)}

theorem tally_append (g : Visit → ℤ) (f : ℕ) (visits : List (Option Visit)) (visit : Option Visit) :
    tally g f (visits ++ [visit]) = tally g f visits + visit.elim 0 fun v => if v.flow = f then g v else 0 := by
  simp [tally]

theorem tally_other {g : Visit → ℤ} (other : v.flow ≠ f) : tally g f (visits ++ [some v]) = tally g f visits := by
  simp [tally_append, other]

theorem tally_own (g : Visit → ℤ) (v : Visit) : tally g v.flow (visits ++ [some v]) = tally g v.flow visits + g v := by
  simp [tally_append]

/-- The books of flow `f` since its activation, `stale` being what its turn was then. -/
structure Balanced (quantum : ℤ) (f : ℕ) (stale : Bool) (s : DRR) (visits : List (Option Visit)) : Prop where
  deficit : (s.drr f).deficitCounter = quanta f visits * quantum - sent f visits
  nonneg : 0 ≤ (s.drr f).deficitCounter
  turns : quanta f visits + (if stale then 1 else 0) = completed f visits + if (s.drr f).turn then 1 else 0

theorem Balanced.congr (balanced : Balanced quantum f stale s visits) {visit : Option Visit} (turn : (next.drr f).turn = (s.drr f).turn)
    (deficit : (next.drr f).deficitCounter = (s.drr f).deficitCounter)
    (same : ∀ g : Visit → ℤ, tally g f (visits ++ [visit]) = tally g f visits) : Balanced quantum f stale next (visits ++ [visit]) where
  deficit := by
    rw [deficit, quanta, sent, same, same]
    exact balanced.deficit
  nonneg := deficit ▸ balanced.nonneg
  turns := by
    rw [turn, quanta, completed, same, same]
    exact balanced.turns

theorem Visited.gain (visited : Visited s next v head rest) :
    (if v.granted then 1 else 0 : ℤ) = if (s.drr v.flow).turn then 0 else 1 := by
  rw [visited.granted]
  cases (s.drr v.flow).turn <;> rfl

/-- A visit to the flow that sends a packet, but not its last one. -/
theorem Balanced.serve (balanced : Balanced s.quantum v.flow stale s visits) (visited : Visited s next v head rest) {pkt : Packet}
    (returned : v.pkt = some pkt) (left : rest ≠ []) : Balanced s.quantum v.flow stale next (visits ++ [some v]) := by
  obtain ⟨rfl, enough, _, kept⟩ := visited.sent pkt returned
  obtain ⟨turn, deficit⟩ := kept left
  have before := balanced.deficit
  have turns := balanced.turns
  have gain := visited.gain
  unfold quanta sent at before
  unfold quanta completed at turns
  rw [granted_eq] at enough deficit
  refine ⟨?_, ?_, ?_⟩
  · rw [quanta, sent, tally_own, tally_own, gain, deficit, returned, Option.map_some, Option.getD_some, before]
    split_ifs <;> ring
  · rw [deficit]
    omega
  · rw [quanta, completed, tally_own, tally_own, gain, turn, returned]
    simp only [reduceCtorEq, if_false, if_true]
    split_ifs at turns ⊢ <;> omega

/-- A visit to the flow that comes to an end. -/
theorem Balanced.pass (balanced : Balanced s.quantum v.flow stale s visits) (visited : Visited s next v head rest)
    (silent : v.pkt = none) (positive : 0 < s.quantum) : Balanced s.quantum v.flow stale next (visits ++ [some v]) := by
  obtain ⟨_, _, turn, deficit⟩ := visited.passed silent
  have before := balanced.deficit
  have turns := balanced.turns
  have nonneg := balanced.nonneg
  have gain := visited.gain
  unfold quanta sent at before
  unfold quanta completed at turns
  rw [granted_eq] at deficit
  refine ⟨?_, ?_, ?_⟩
  · rw [quanta, sent, tally_own, tally_own, gain, deficit, silent, before]
    split_ifs
    · simp
    · simp only [Option.map_none, Option.getD_none]
      push_cast
      ring
  · rw [deficit]
    split_ifs <;> omega
  · rw [quanta, completed, tally_own, tally_own, gain, turn, silent]
    simp only [if_true, Bool.false_eq_true, if_false]
    split_ifs at turns ⊢ <;> omega

/-- An event while the flow is active. -/
theorem Sound.balanced (sound : Sound quantum maxpkt s ring) (positive : 0 < quantum) (active : s.queues f ≠ [])
    (balanced : Balanced quantum f stale s visits) {e : Event} (proper : e.Proper maxpkt) {out : Option Visit}
    (taken : events.step s e = some (next, out)) (stays : next.queues f ≠ []) : Balanced quantum f stale next (visits ++ [out]) := by
  cases e with
  | enque pkt =>
    obtain ⟨⟨mid, dropped⟩, enqued, same⟩ := Option.map_eq_some_iff.mp taken
    cases same
    obtain ⟨_, _, turn, deficit, _⟩ := sound.enque proper enqued
    exact balanced.congr (turn f) (deficit f active) fun g => by simp [tally_append]
  | visit =>
    obtain ⟨⟨mid, v⟩, made, same⟩ := Option.map_eq_some_iff.mp taken
    cases same
    obtain ⟨head, rest, _, visited, _⟩ := sound.visited made
    by_cases own : v.flow = f
    · subst own
      rw [← sound.quantum] at balanced positive ⊢
      cases returned : v.pkt with
      | none => exact balanced.pass visited returned positive
      | some pkt =>
        refine balanced.serve visited returned ?_
        rintro rfl
        obtain ⟨_, _, queues, _⟩ := visited.sent pkt returned
        simp [queues] at stays
    · exact balanced.congr (visited.turn f (Ne.symm own)) (visited.deficit f (Ne.symm own)) fun g => tally_other own

theorem visit_of_event (taken : events.step s .visit = some (next, some v)) : s.visit = some (next, v) := by
  obtain ⟨⟨mid, w⟩, made, same⟩ := Option.map_eq_some_iff.mp taken
  cases same
  exact made

/-- The books when a visit to the flow ends. -/
theorem Sound.finish (sound : Sound quantum maxpkt s ring) (positive : 0 < quantum) (balanced : Balanced quantum v.flow stale s visits)
    (taken : s.visit = some (next, v)) (silent : v.pkt = none) :
    Served quantum maxpkt v.flow (visits ++ [some v]) ↔ stale = false := by
  obtain ⟨head, rest, _, visited, _⟩ := sound.visited taken
  obtain ⟨less, _, off, deficit⟩ := visited.passed silent
  have most : head.size ≤ maxpkt := sound.most v.flow head (by rw [visited.queue]; exact List.mem_cons_self)
  have closed : Balanced quantum v.flow stale next (visits ++ [some v]) := by
    rw [← sound.quantum] at balanced positive ⊢
    exact balanced.pass visited silent positive
  have balance := closed.deficit
  have nonneg := closed.nonneg
  have turns := closed.turns
  rw [deficit] at balance nonneg
  rw [off, if_neg Bool.false_ne_true, add_zero] at turns
  constructor
  · intro served
    have each := served.quanta
    by_contra still
    rw [if_pos (Bool.not_eq_false _ ▸ still)] at turns
    omega
  · rintro rfl
    rw [if_neg Bool.false_ne_true, add_zero] at turns
    rw [turns] at balance
    exact ⟨turns, by omega, by omega⟩

/-- A flow that is activated is served as it should be exactly if its turn is not still on from before. -/
theorem Sound.served_iff (sound : Sound quantum maxpkt s ring) (positive : 0 < quantum) {pkt : Packet} {mid : List Event}
    (period : Period maxpkt s f pkt mid visits) : Served quantum maxpkt f visits ↔ (s.drr f).turn = false := by
  obtain ⟨first, dropped, last, earlier, w, enqued, along, run, ended, rfl, silent⟩ := period.ran
  obtain ⟨proper, properMid⟩ := List.forall_mem_cons.mp period.proper
  obtain ⟨ring₁, sound₁, turn, _, fresh⟩ := sound.enque proper enqued
  obtain ⟨before, visits₁, rest₁, early, late, joined⟩ := Machine.run_split run
  have activated : first.queues w.flow ≠ [] := by
    cases mid <;> exact along.head
  have start : Balanced quantum w.flow (s.drr w.flow).turn first [] := by
    have none := fresh w.flow period.idle activated
    refine ⟨?_, none.ge, ?_⟩
    · rw [none]
      simp [quanta, sent, tally]
    · rw [turn]
      simp [quanta, completed, tally]
  obtain ⟨⟨ring₂, sound₂⟩, booked⟩ := Machine.run_kept_logged_along (M := events) (P := fun s e => e.Proper maxpkt ∧ s.queues w.flow ≠ [])
    (I := fun s visits => (∃ ring, Sound quantum maxpkt s ring) ∧
      (s.queues w.flow ≠ [] → Balanced quantum w.flow (first.drr w.flow).turn s visits))
    (fun s visits e next out holds met taken => by
      obtain ⟨⟨ring, sound⟩, booked⟩ := holds
      exact ⟨sound.event met.1 taken, sound.balanced positive met.2 (booked met.2) met.1 taken⟩)
    ⟨⟨ring₁, sound₁⟩, fun _ => by rwa [turn]⟩ ((Machine.along_of_forall properMid).and along.left) early
  rw [List.nil_append, turn] at booked
  have active : before.queues w.flow ≠ [] := (along.right early).head
  obtain ⟨⟨after, v⟩, made, same⟩ := Option.bind_eq_some_iff.mp late
  cases same
  obtain ⟨rfl, last⟩ := List.append_inj' (ended.symm.trans joined) rfl
  cases last
  rw [joined]
  exact sound₂.finish positive (booked active) (visit_of_event made) silent

end Periods

/-- In every state that the events reach, `deque` returns a packet if there are bytes, and a flow that is activated is served
as it should be exactly if its turn is not still on from before. -/
theorem service_bound_iff (buckets : ℕ+) (blimit quantum : ℤ) (mask : Bool) (maxpkt : ℕ) (positive : 0 < quantum) (before : List Event)
    (proper : ∀ e ∈ before, e.Proper maxpkt) (s : DRR) (outs : List (Option Visit))
    (reached : events.run (make buckets blimit quantum mask) before = some (s, outs)) :
    (0 < s.bytecnt → ∃ rounds next pkt, s.deque rounds = some (next, some pkt) ∧ ∃ k rest, s.queues k = pkt :: rest) ∧
      ∀ f pkt mid visits, Period maxpkt s f pkt mid visits → (Served quantum maxpkt f visits ↔ (s.drr f).turn = false) := by
  obtain ⟨ring, sound⟩ := Machine.run_kept (M := events) (P := fun _ e => e.Proper maxpkt) (I := fun s => ∃ ring, Sound quantum maxpkt s ring)
    (fun s e next out holds proper taken => by
      obtain ⟨ring, sound⟩ := holds
      exact sound.event proper taken)
    ⟨[], make_sound buckets blimit quantum mask maxpkt⟩ (Machine.along_of_forall proper) reached
  refine ⟨fun backlog => ?_, fun f pkt mid visits period => sound.served_iff positive period⟩
  have some := sound.counts.active sound.active backlog.ne'
  obtain ⟨i, member⟩ := List.exists_mem_of_ne_nil ring some
  obtain ⟨l, r, rfl⟩ := List.append_of_mem member
  obtain ⟨rounds, next, pkt, returned, queued⟩ := sound.returns positive
  exact ⟨rounds, next, pkt, (if_neg backlog.ne').trans returned, queued⟩

def packet (uid : ℕ) (saddr : ℤ) (size : ℕ) : Packet := ⟨uid, saddr, 0, size⟩

/-- Flow 1 has sent one of its packets, and is in the middle of its turn when the queue drops the other one. -/
def droppedEvents : List Event :=
  [.enque (packet 1 1 400), .enque (packet 2 1 400), .visit, .enque (packet 3 2 300), .enque (packet 4 3 350)]

def droppedVisits : List (Option Visit) := [none, none, some ⟨1, true, some (packet 1 1 400)⟩, none, none]

def dropped : DRR := ((events.run (make 8 1000 500 false) droppedEvents).map Prod.fst).getD (make 8 1000 500 false)

theorem dropped_reached : events.run (make 8 1000 500 false) droppedEvents = some (dropped, droppedVisits) :=
  Machine.eq_some_of_answer _ (by decide +kernel)

theorem service_bound_iff_sample :
    (0 < dropped.bytecnt → ∃ rounds next pkt, dropped.deque rounds = some (next, some pkt) ∧ ∃ k rest, dropped.queues k = pkt :: rest) ∧
      ∀ f pkt mid visits, Period 400 dropped f pkt mid visits → (Served 500 400 f visits ↔ (dropped.drr f).turn = false) :=
  service_bound_iff 8 1000 500 false 400 (by decide) droppedEvents (by decide) dropped droppedVisits dropped_reached

/-- The visits after the flow is active again: two calls of `deque` send the packets of the other flows, and the third
passes over it. -/
def againVisits : List (Option Visit) :=
  [some ⟨2, true, some (packet 3 2 300)⟩, some ⟨3, true, some (packet 4 3 350)⟩, some ⟨1, false, none⟩]

/-- The flow gets no quantum at its first visit. -/
theorem quantum_withheld : events.run (make 8 1000 500 false) droppedEvents = some (dropped, droppedVisits) ∧
    Period 400 dropped 1 (packet 5 1 100) [.visit, .visit] againVisits ∧ ¬Served 500 400 1 againVisits := by
  have enqued : dropped.enque (packet 5 1 100) = some (((dropped.enque (packet 5 1 100)).map Prod.fst).getD dropped, []) :=
    Machine.eq_some_of_answer _ (by decide +kernel)
  refine ⟨dropped_reached, ⟨by decide +kernel, by decide, ?_⟩, by decide⟩
  exact ⟨_, _, _, againVisits.dropLast, ⟨1, false, none⟩, enqued, by decide +kernel,
    Machine.eq_some_of_answer dropped (by decide +kernel), rfl, rfl, rfl⟩

end Ns2.DRR
