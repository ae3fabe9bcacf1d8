import Ns2.Library.Machine
import Ns2.Aodv.Rqueue
import Mathlib.Algebra.Order.Group.Multiset
import Mathlib.Tactic.Abel

namespace Ns2

/-- The buffer with its history: every packet that arrives gets the number of packets that arrived before. -/
structure AodvBuffer where
  queue : AodvRqueue
  arrivals : ℕ
  serial : ℕ → ℕ
  returned : List ℕ
  dropped : List (ℕ × RtrDrop)

def RqueueCall.arriving : RqueueCall → List ℕ
  | .enque p _ => [p]
  | _ => []

namespace AodvBuffer

def initial (next : ℕ → Option ℕ) (ts : ℕ → ℚ) (daddr serial : ℕ → ℕ) : AodvBuffer := ⟨.make next ts daddr, 0, serial, [], []⟩

def record (b : AodvBuffer) (c : RqueueCall) (queue : AodvRqueue) (answer : RqueueAnswer) : AodvBuffer :=
  let serial := c.arriving.foldl (fun serial p => Function.update serial p b.arrivals) b.serial
  { queue := queue
    arrivals := b.arrivals + c.arriving.length
    serial := serial
    returned := b.returned ++ answer.returned.map serial
    dropped := b.dropped ++ answer.dropped.map (Prod.map serial id) }

/-- A call is made at a time. -/
def machine : Machine AodvBuffer (ℚ × RqueueCall) RqueueAnswer :=
  ⟨fun b c => (b.queue.call c.1 c.2).map fun done => (b.record c.2 done.1 done.2, done.2)⟩

/-- A packet that is put into the buffer is not in it. -/
def Admitted (b : AodvBuffer) (c : ℚ × RqueueCall) : Prop := ∀ p ∈ c.2.arriving, p ∉ b.queue.packets

instance (b : AodvBuffer) (c : ℚ × RqueueCall) : Decidable (b.Admitted c) := inferInstanceAs (Decidable (∀ p ∈ _, _))

/-- No packet of the buffer has timed out when it is purged. -/
def NothingAged (b : AodvBuffer) (c : ℚ × RqueueCall) : Prop :=
  match c.2 with
  | .find _ => True
  | _ => ∀ p ∈ b.queue.packets, ¬b.queue.ts p < c.1

/-- `head_`, `tail_` and `len_` describe a list of at most `limit_` packets in the order in which they arrived. -/
structure Lists (b : AodvBuffer) (l : List ℕ) : Prop where
  holds : b.queue.Holds l
  limit : b.queue.limit = 64
  room : l.length ≤ b.queue.limit
  ordered : (l.map b.serial).Pairwise (· < ·)
  earlier : ∀ p ∈ l, b.serial p < b.arrivals

/-- Every packet that has arrived is in the list, or has been returned or dropped, and only one of these. -/
def Accounts (b : AodvBuffer) (l : List ℕ) : Prop :=
  (l.map b.serial ++ b.returned ++ b.dropped.map Prod.fst).Perm (List.range b.arrivals)

def Linked (b : AodvBuffer) : Prop := ∃ l, b.Lists l

def Sound (b : AodvBuffer) : Prop := ∃ l, b.Lists l ∧ b.Accounts l

/-- `deque(dst)` gives the oldest packet for `dst` that has not timed out. -/
def Oldest (b : AodvBuffer) (c : ℚ × RqueueCall) : Prop :=
  ∀ dst after answer, c.2 = .dequeDst dst → machine.step b c = some (after, answer) →
    answer = .packet (b.queue.packets.find? fun p => b.queue.daddr p = dst ∧ ¬b.queue.ts p < c.1)

variable {b after : AodvBuffer} {c : ℚ × RqueueCall} {l k kept : List ℕ} {q : AodvRqueue} {answer : RqueueAnswer}

/-- The packets that a call finds in the list once it has purged it. -/
def found (b : AodvBuffer) (c : ℚ × RqueueCall) (l : List ℕ) : List ℕ :=
  match c.2 with
  | .find _ => l
  | _ => b.queue.fresh c.1 l

theorem found_sublist (b : AodvBuffer) (c : ℚ × RqueueCall) (l : List ℕ) : (b.found c l).Sublist l := by
  unfold found
  split
  · exact List.Sublist.refl l
  · exact List.filter_sublist

theorem found_length_iff (holds : b.queue.Holds l) : (b.found c l).length = l.length ↔ b.NothingAged c := by
  unfold found NothingAged
  split
  · exact iff_of_true rfl trivial
  · rw [holds.packets, AodvRqueue.fresh, List.length_filter_eq_length_iff]
    exact forall₂_congr fun p _ => decide_eq_true_iff

theorem call_called (lists : b.Lists l) (outside : ∀ p ∈ c.2.arriving, p ∉ l) :
    ∃ q answer k, b.queue.call c.1 c.2 = some (q, answer) ∧ b.queue.Called (b.found c l) c.2.arriving q answer k := by
  obtain ⟨now, c⟩ := c
  have holds := lists.holds
  have positive : 0 < b.queue.limit := by rw [lists.limit]; decide
  cases c with
  | enque p dst =>
    have renamed : AodvRqueue.Holds { b.queue with daddr := Function.update b.queue.daddr p dst } l := ⟨holds.path, holds.tail, holds.len⟩
    obtain ⟨q, dropped, k, done, called⟩ := renamed.enque positive (outside p List.mem_cons_self) now
    exact ⟨q, .stored dropped, k, by dsimp only [AodvRqueue.call]; rw [done]; rfl,
      called.holds, called.limit, called.ordered, called.accounts, called.room⟩
  | deque =>
    obtain ⟨q, p, done, called⟩ := holds.deque now
    exact ⟨q, .packet p, _, by dsimp only [AodvRqueue.call]; rw [done]; rfl, called⟩
  | dequeDst dst =>
    obtain ⟨q, k, done, called⟩ := holds.dequeDst now dst
    exact ⟨q, _, k, by dsimp only [AodvRqueue.call]; rw [done]; rfl, called⟩
  | find dst =>
    refine ⟨b.queue, .found _, l, by dsimp only [AodvRqueue.call]; rw [holds.find]; rfl, holds, rfl, ?_, ?_, id⟩
    · exact List.sublist_append_left _ _
    · show ((l ++ []) ++ []).Perm (l ++ [])
      rw [List.append_nil]

/-- The numbers after a call: what was in the list keeps its number, and what arrives has got the next one. -/
theorem record_serial (b : AodvBuffer) (c : ℚ × RqueueCall) (q : AodvRqueue) (answer : RqueueAnswer) (outside : ∀ p ∈ c.2.arriving, p ∉ l) :
    (∀ p ∈ l, (b.record c.2 q answer).serial p = b.serial p) ∧
      List.range (b.record c.2 q answer).arrivals = List.range b.arrivals ++ c.2.arriving.map (b.record c.2 q answer).serial := by
  obtain ⟨now, c⟩ := c
  cases c with
  | enque p dst =>
    refine ⟨fun x member => Function.update_of_ne (ne_of_mem_of_not_mem member (outside p List.mem_cons_self)) _ _, ?_⟩
    show List.range (b.arrivals + 1) = List.range b.arrivals ++ [Function.update b.serial p b.arrivals p]
    rw [List.range_succ, Function.update_self]
  | _ => exact ⟨fun _ _ => rfl, (List.append_nil _).symm⟩

/-- What comes in, is returned and is dropped is added to what has been there. -/
theorem accounted {returned dropped new old given thrown all : List ℕ} (call : (k ++ returned ++ dropped).Perm (old ++ new))
    (before : (old ++ given ++ thrown).Perm all) : (k ++ (given ++ returned) ++ (thrown ++ dropped)).Perm (all ++ new) := by
  simp only [← Multiset.coe_eq_coe, ← Multiset.coe_add] at call before ⊢
  calc (k : Multiset ℕ) + (given + returned) + (thrown + dropped)
    _ = k + returned + dropped + (given + thrown) := by abel
    _ = old + given + thrown + new := by rw [call]; abel
    _ = all + new := by rw [before]

/-- What a call leaves of the list, and when it accounts for all packets. -/
theorem step_spec (lists : b.Lists l) (outside : ∀ p ∈ c.2.arriving, p ∉ l) :
    ∃ after answer k, machine.step b c = some (after, answer) ∧ after.Lists k ∧ (b.Accounts l → (after.Accounts k ↔ b.NothingAged c)) := by
  obtain ⟨q, answer, k, done, called⟩ := call_called lists outside
  obtain ⟨same, range⟩ := record_serial b c q answer outside
  have below := found_sublist b c l
  have kept : (b.found c l).map (b.record c.2 q answer).serial = (b.found c l).map b.serial :=
    List.map_congr_left fun p member => same p (below.subset member)
  have sublist : (k.map (b.record c.2 q answer).serial).Sublist (l.map b.serial ++ c.2.arriving.map (b.record c.2 q answer).serial) := by
    refine (called.ordered.map _).trans ?_
    rw [List.map_append, kept]
    exact (below.map _).append (List.Sublist.refl _)
  have arrived : c.2.arriving.map (b.record c.2 q answer).serial = List.range' b.arrivals c.2.arriving.length := by
    have rest : List.range (b.arrivals + c.2.arriving.length) = _ := range
    rw [List.range_eq_range', List.range_eq_range', ← List.range'_append_1, zero_add] at rest
    exact (List.append_cancel_left rest).symm
  rw [arrived] at sublist
  have exact : (k ++ answer.returned ++ answer.dropped.map Prod.fst).length = _ := called.accounts.length_eq
  simp only [List.length_append, List.length_map] at exact
  refine ⟨b.record c.2 q answer, answer, k, ?_, ⟨called.holds, called.limit.trans lists.limit, ?_, ?_, ?_⟩, fun accounts => ?_⟩
  · show Option.map _ (b.queue.call c.1 c.2) = _
    rw [done]
    rfl
  · show (k.length : ℤ) ≤ q.limit
    rw [called.limit]
    have length := below.length_le
    have room := lists.room
    exact called.room (by omega)
  · refine List.Pairwise.sublist sublist (List.pairwise_append.mpr ⟨lists.ordered, List.pairwise_lt_range', fun x old y new => ?_⟩)
    obtain ⟨p, member, rfl⟩ := List.mem_map.mp old
    exact (lists.earlier p member).trans_le (List.mem_range'_1.mp new).1
  · intro p member
    rcases List.mem_append.mp (sublist.subset (List.mem_map_of_mem member)) with old | new
    · obtain ⟨x, inside, number⟩ := List.mem_map.mp old
      rw [← number]
      exact (lists.earlier x inside).trans_le (Nat.le_add_right ..)
    · exact (List.mem_range'_1.mp new).2
  · rw [← found_length_iff lists.holds]
    have before := accounts.length_eq
    simp only [List.length_append, List.length_map, List.length_range] at before
    constructor
    · intro all
      have later : (k.map _ ++ (b.returned ++ answer.returned.map _) ++ (b.dropped ++ answer.dropped.map _).map Prod.fst).length = _ :=
        all.length_eq
      simp only [List.length_append, List.length_map, List.length_range] at later
      have number : (b.record c.2 q answer).arrivals = b.arrivals + c.2.arriving.length := rfl
      omega
    · intro whole
      rw [below.eq_of_length whole] at called
      have mapped := called.accounts.map (b.record c.2 q answer).serial
      rw [List.map_append, List.map_append, List.map_append, List.map_map, List.map_congr_left same] at mapped
      have balanced := accounted mapped accounts
      rw [← range] at balanced
      have dropped : (b.record c.2 q answer).dropped.map Prod.fst =
          b.dropped.map Prod.fst ++ answer.dropped.map ((b.record c.2 q answer).serial ∘ Prod.fst) := by
        show (b.dropped ++ answer.dropped.map (Prod.map (b.record c.2 q answer).serial id)).map Prod.fst = _
        rw [List.map_append, List.map_map]
        rfl
      unfold Accounts
      rw [dropped]
      exact balanced

theorem step_oldest (lists : b.Lists l) (c : ℚ × RqueueCall) : b.Oldest c := by
  obtain ⟨now, c⟩ := c
  intro dst after answer asked step
  dsimp only at asked
  subst asked
  obtain ⟨q, k, done, _⟩ := lists.holds.dequeDst now dst
  obtain ⟨⟨q', answer'⟩, called, same⟩ := Option.map_eq_some_iff.mp step
  obtain ⟨⟨q'', p⟩, gone, made⟩ := Option.map_eq_some_iff.mp called
  cases Option.some.inj (done.symm.trans gone)
  cases made
  cases same
  rw [lists.holds.packets, AodvRqueue.fresh, List.find?_filter]
  exact congrArg RqueueAnswer.packet (congrArg (fun test => List.find? test l) (funext fun p => by simp [and_comm]))

theorem initial_lists (next : ℕ → Option ℕ) (ts : ℕ → ℚ) (daddr serial : ℕ → ℕ) : (initial next ts daddr serial).Lists [] :=
  ⟨⟨rfl, rfl, rfl⟩, rfl, Int.natCast_nonneg 64, List.Pairwise.nil, fun _ none => absurd none List.not_mem_nil⟩

/-- A call never fails, and it keeps the account exactly if nothing that it purges has aged. -/
theorem step_sound (linked : b.Linked) (outside : b.Admitted c) : ∃ after answer, machine.step b c = some (after, answer) ∧ after.Linked ∧
    (b.Sound → (after.Sound ↔ b.NothingAged c)) := by
  obtain ⟨l, lists⟩ := linked
  unfold Admitted at outside
  rw [lists.holds.packets] at outside
  obtain ⟨after, answer, k, taken, kept, exact⟩ := step_spec lists outside
  refine ⟨after, answer, taken, ⟨k, kept⟩, ?_⟩
  rintro ⟨l', lists', accounts⟩
  cases lists.holds.unique lists'.holds
  rw [← exact accounts]
  refine ⟨?_, fun whole => ⟨k, kept, whole⟩⟩
  rintro ⟨k', kept', whole⟩
  cases kept.holds.unique kept'.holds
  exact whole

theorem step_kept (linked : b.Linked) (outside : b.Admitted c) (taken : machine.step b c = some (after, answer)) :
    after.Linked ∧ (b.Sound → (after.Sound ↔ b.NothingAged c)) := by
  obtain ⟨after', answer', taken', rest⟩ := step_sound linked outside
  cases Option.some.inj (taken.symm.trans taken')
  exact rest

/-- Every run goes to its end and finds what `deque(dst)` has to give, and accounts for all packets exactly as long as nothing times out. -/
theorem sound_iff (next : ℕ → Option ℕ) (ts : ℕ → ℚ) (daddr serial : ℕ → ℕ) {calls : List (ℚ × RqueueCall)}
    (admitted : machine.Along Admitted (initial next ts daddr serial) calls) :
    (∃ last answers, machine.run (initial next ts daddr serial) calls = some (last, answers)) ∧
      (machine.Throughout Sound (initial next ts daddr serial) calls ∧ machine.Along Oldest (initial next ts daddr serial) calls ↔
        machine.Along NothingAged (initial next ts daddr serial) calls) := by
  have start : (initial next ts daddr serial).Linked := ⟨[], initial_lists next ts daddr serial⟩
  have total : ∀ b c, Linked b → Admitted b c → ∃ after answer, machine.step b c = some (after, answer) ∧ Linked after := by
    intro b c linked outside
    obtain ⟨after, answer, taken, kept, _⟩ := step_sound linked outside
    exact ⟨after, answer, taken, kept⟩
  obtain ⟨last, answers, run, _⟩ := Machine.run_invariant total start admitted
  have oldest : machine.Along Oldest (initial next ts daddr serial) calls :=
    Machine.along_of_kept (fun _ _ _ _ linked outside taken => (step_kept linked outside taken).1)
      (fun b c linked _ => linked.elim fun l lists => step_oldest lists c) start admitted
  refine ⟨⟨last, answers, run⟩, ?_⟩
  rw [and_iff_left oldest]
  exact Machine.throughout_iff_along_of_admitted
    (fun _ _ _ _ linked sound outside taken => (step_kept linked outside taken).imp_right fun exact => exact sound)
    run admitted start ⟨[], initial_lists next ts daddr serial, List.Perm.refl []⟩

theorem sound_iff_sample : (∃ last answers, machine.run (initial (fun _ => none) (fun _ => 0) id id)
      [(0, .enque 7 1), (3, .enque 4 2), (5, .find 2), (6, .dequeDst 2), (6, .enque 4 1), (9, .dequeDst 2), (40, .deque)] =
        some (last, answers)) ∧
    (machine.Throughout Sound (initial (fun _ => none) (fun _ => 0) id id)
        [(0, .enque 7 1), (3, .enque 4 2), (5, .find 2), (6, .dequeDst 2), (6, .enque 4 1), (9, .dequeDst 2), (40, .deque)] ∧
      machine.Along Oldest (initial (fun _ => none) (fun _ => 0) id id)
        [(0, .enque 7 1), (3, .enque 4 2), (5, .find 2), (6, .dequeDst 2), (6, .enque 4 1), (9, .dequeDst 2), (40, .deque)] ↔
      machine.Along NothingAged (initial (fun _ => none) (fun _ => 0) id id)
        [(0, .enque 7 1), (3, .enque 4 2), (5, .find 2), (6, .dequeDst 2), (6, .enque 4 1), (9, .dequeDst 2), (40, .deque)]) :=
  sound_iff _ _ _ _ (by decide +kernel)

/-- A packet that is put into the buffer times out before anything asks for it. -/
theorem aged_packet_lost : ∃ calls last answers, machine.run (initial (fun _ => none) (fun _ => 0) id id) calls = some (last, answers) ∧
    machine.Along Admitted (initial (fun _ => none) (fun _ => 0) id id) calls ∧ (calls.map Prod.fst).Pairwise (· ≤ ·) ∧
      ¬machine.Throughout Sound (initial (fun _ => none) (fun _ => 0) id id) calls := by
  have ran : (machine.run (initial (fun _ => none) (fun _ => 0) id id) [(0, .enque 7 1), (31, .deque)]).map
      (fun done => (done.1.arrivals, done.1.queue.len, done.1.returned, done.1.dropped)) = some (1, 0, [], []) := by decide +kernel
  obtain ⟨⟨last, answers⟩, run, lost⟩ := Option.map_eq_some_iff.mp ran
  obtain ⟨arrived, len, returned, dropped⟩ : last.arrivals = 1 ∧ last.queue.len = 0 ∧ last.returned = [] ∧ last.dropped = [] := by
    simpa only [Prod.mk.injEq] using lost
  refine ⟨_, last, answers, run, by decide +kernel, by decide +kernel, fun sound => ?_⟩
  obtain ⟨l, lists, accounts⟩ := sound _ [] last answers (List.append_nil _).symm run
  have length := accounts.length_eq
  have empty := lists.holds.len
  rw [returned, dropped, arrived] at length
  simp only [List.length_append, List.length_map, List.length_range, List.length_nil] at length
  omega

end AodvBuffer

end Ns2
