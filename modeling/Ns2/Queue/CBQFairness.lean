import Ns2.Queue.CBQRoundRobin
import Mathlib.Algebra.Order.Archimedean.Basic
import Mathlib.Data.Finset.Order
import Mathlib.Tactic.Linarith

universe u

namespace Ns2.WRR

open QuotaRound Relation

variable {ι : Type u} [DecidableEq ι]

/-- The bytes of the class in an answer of `deque`. -/
def passed (cl : ι) (answer : Option (ι × Option ℤ)) : ℤ :=
  answer.elim 0 fun resumed => if resumed.1 = cl then resumed.2.getD 0 else 0

/-- The bytes that the class has sent in a run. -/
def sent (answers : List (Option (ι × Option ℤ))) (cl : ι) : ℤ := (answers.map (passed cl)).sum

/-- All classes at the priority have packets of proper sizes and are permitted to send. -/
def Backlogged {s : CBQueue ι} (p : ℤ) (t : Rounds s) (o : Offer ι) : Prop :=
  ∀ cl ∈ t.active p, o.Able cl ∧ ∃ size, o.size cl = some size ∧ 0 < size ∧ size ≤ s.maxpkt

/-- No class at a higher priority takes the call. -/
def Reaches {s : CBQueue ι} (p : ℤ) (t : Rounds s) (o : Offer ι) : Prop := ∀ prio < p, ∀ cl ∈ t.active prio, ¬o.Able cl

/-- Nothing is forgiven when the balances are set to 0. -/
def Repaid {s : CBQueue ι} (w : WRR) (p : ℤ) (t : Rounds s) (o : Offer ι) : Prop :=
  Reaches p t o → Solvent (w.weight s) t.bytesAlloc (t.active p)

section Step

variable {s : CBQueue ι} {w : WRR} {o : Offer ι} {u v : Scan ι} {t : Rounds s} {cl h i : ι} {l rest z : List ι} {p maxpkt : ℤ}
  {ledger : ι → ℤ}

/-- The classes passed over have nothing to be forgiven. -/
theorem scan_solvent (distinct : (l ++ z).Nodup) (early : v.deficit = 0 ∨ v.deficit = 1) (able : ∀ cl ∈ l, o.Able cl)
    (solvent : Solvent (w.weight s) v.bytesAlloc l) : ∃ skipped h rest balance u, l = skipped ++ h :: rest ∧
      ReflTransGen (QuotaRound.Visit (w.weight s) maxpkt) ⟨l ++ z, v.bytesAlloc, ledger⟩ ⟨h :: rest ++ (z ++ skipped), balance, ledger⟩ ∧
      w.scan s o l v = (some h, u) ∧ 0 < topped (w.weight s) balance h ∧ u.bytesAlloc h = topped (w.weight s) balance h ∧
      ∀ i, i ≠ h → u.bytesAlloc i = balance i := by
  induction l generalizing v z with
  | nil => exact solvent.elim
  | cons head peers ih =>
    obtain ⟨first, later⟩ := List.forall_mem_cons.mp able
    have step : Visited s w o v head (w.visit s o v head) := visited
    rw [scan]
    generalize w.visit s o v head = next at step ⊢
    cases step with
    | barred barred => exact absurd ⟨first.demand, first.permitted _⟩ barred
    | @ready u weighed weighty =>
      have own := weighed.own (by omega)
      refine ⟨[], head, peers, v.bytesAlloc, u, rfl, ?_, rfl, ?_, own, weighed.others⟩
      · rw [List.append_nil]
      · rw [← own]
        omega
    | @short u low deficit weightless own others =>
      obtain ⟨zero, solvent⟩ := solvent.resolve_left (not_lt.mpr weightless)
      have absent : head ∉ peers ++ z := (List.nodup_cons.mp distinct).1
      have same (i : ι) (member : i ∈ peers ++ z) : u.bytesAlloc i = v.bytesAlloc i := others i fun here => absent (here ▸ member)
      have moved : (peers ++ (z ++ [head])).Nodup := by
        rw [← List.append_assoc]
        exact List.nodup_append_comm.mp distinct
      obtain ⟨skipped, h, rest, balance, u', rfl, visits, found, may, weighed, others⟩ :=
        ih moved (Or.inr deficit) later (solvent.congr fun i member => same i (List.mem_append_left _ member))
      refine ⟨head :: skipped, h, rest, balance, u', rfl, .head (.skip ⟨same, fun _ _ => rfl⟩ zero own rfl) ?_, found, may, weighed, others⟩
      rw [← List.append_assoc, List.append_assoc z] at visits
      exact visits

theorem passed_other {size : Option ℤ} (other : i ≠ cl) : passed i (some (cl, size)) = 0 := if_neg other.symm

theorem passed_self {size : ℤ} : passed cl (some (cl, some size)) = size := if_pos rfl

/-- Accounting for a packet is a visit of the class at the front. -/
theorem account_visit {size : ℤ} (ring : t.active p = z ++ h :: rest) (pri : (s.cls h).pri = p) (positive : 0 < size)
    (within : size ≤ maxpkt) {balance : ι → ℤ} (may : 0 < topped (w.weight s) balance h)
    (weighed : t.bytesAlloc h = topped (w.weight s) balance h) (others : ∀ i, i ≠ h → t.bytesAlloc i = balance i) :
    QuotaRound.Visit (w.weight s) maxpkt ⟨h :: (rest ++ z), balance, ledger⟩
      ⟨(account t h (some size)).active p, (account t h (some size)).bytesAlloc, fun i => ledger i + passed i (some (h, some size))⟩ := by
  have distinct : (h :: (rest ++ z)).Nodup := by
    have nodup := t.distinct p
    rw [ring] at nodup
    exact List.nodup_append_comm.mp nodup
  obtain ⟨absent, _⟩ := List.nodup_cons.mp distinct
  have apart (i : ι) (member : i ∈ rest ++ z) : i ≠ h := fun same => absent (same ▸ member)
  have kept : Kept (rest ++ z) balance (account t h (some size)).bytesAlloc ledger fun i => ledger i + passed i (some (h, some size)) :=
    ⟨fun i member => (account_other (apart i member)).trans (others i (apart i member)),
      fun i member => by rw [passed_other (apart i member), add_zero]⟩
  have left : (account t h (some size)).bytesAlloc h = topped (w.weight s) balance h - size := by
    rw [← weighed]
    exact charge_self (weighed ▸ may)
  have sends : ledger h + passed h (some (h, some size)) = ledger h + size := by rw [passed_self]
  have active : (account t h (some size)).active p =
      if 0 < (account t h (some size)).bytesAlloc h then h :: (rest ++ z) else rest ++ z ++ [h] := by
    have turned : (account t h (some size)).active p =
        Rounds.turnTo h (decide (0 < (account t h (some size)).bytesAlloc h)) (t.active p) := advance_active.trans (if_pos pri.symm)
    rw [turned, ring, Rounds.turnTo_append fun member => absent (List.mem_append_right _ member)]
    simp only [decide_eq_true_iff, List.cons_append]
  rw [active]
  split_ifs with more
  · exact .stay kept positive within left sends more
  · exact .done kept within left sends may (not_lt.mp more)

/-- A call of `deque` makes visits in the ring at the priority, or none. -/
theorem deque_visits (ledger : ι → ℤ) (inside : 0 ≤ p ∧ p ≤ s.maxprio) (backlogged : Backlogged p t o) (repaid : Repaid w p t o) :
    ReflTransGen (QuotaRound.Visit (w.weight s) s.maxpkt) ⟨t.active p, t.bytesAlloc, ledger⟩
      ⟨(w.deque s t o).1.active p, (w.deque s t o).1.bytesAlloc, fun i => ledger i + passed i (w.deque s t o).2⟩ := by
  obtain ⟨higher, lower, split, before⟩ := priorities_split inside
  have apart : ∀ prio ∈ higher, ∀ i ∈ t.active p, i ∉ t.active prio := by
    intro prio member i here there
    have less := ((before prio).mp member).2
    rw [← t.pri prio i there, t.pri p i here] at less
    exact lt_irrefl p less
  rcases search_reaches (w := w) (o := o) (v := ⟨none, 0, t.bytesAlloc⟩) apart with
    ⟨prio, member, cl, listed, u, found, kept⟩ | ⟨u, goes, kept, idle⟩
  · rw [← split] at found
    have less := ((before prio).mp member).2
    have elsewhere : p ≠ (s.cls cl).pri := by
      rw [t.pri prio cl listed]
      exact less.ne'
    rw [deque_found found, account_active elsewhere]
    have other (i : ι) (here : i ∈ t.active p) : i ≠ cl := by
      rintro rfl
      exact apart prio member i here listed
    refine .single (.idle ⟨fun i here => (account_other (other i here)).trans (kept i here), fun i here => ?_⟩)
    rw [passed_other (other i here), add_zero]
  · have reaches : Reaches p t o := by
      intro prio less cl listed
      exact idle prio ((before prio).mpr ⟨(t.scanned prio cl listed).1, less⟩) cl listed
    have solvent : Solvent (w.weight s) u.bytesAlloc (t.active p) := (repaid reaches).congr kept
    have distinct : (t.active p ++ []).Nodup := by
      rw [List.append_nil]
      exact t.distinct p
    obtain ⟨skipped, h, rest, balance, u', ring, visits, found, may, weighed, others⟩ :=
      scan_solvent (v := { u with deficit := 0 }) distinct (Or.inl rfl) (fun cl member => (backlogged cl member).1) solvent
    have listed : h ∈ t.active p := by
      rw [ring]
      exact List.mem_append_right _ List.mem_cons_self
    obtain ⟨size, offered, positive, within⟩ := (backlogged h listed).2
    rw [← split, search_found found] at goes
    rw [deque_found goes, offered]
    refine .head (.idle ⟨kept, fun _ _ => rfl⟩) ?_
    rw [List.append_nil, List.nil_append] at visits
    exact visits.tail (account_visit (t := { t with bytesAlloc := u'.bytesAlloc }) ring (t.pri p h listed) positive within may weighed others)

end Step

section Runs

variable {s : CBQueue ι} {w : WRR} {t u : Rounds s} {p : ℤ} {offers : List (Offer ι)} {answers : List (Option (ι × Option ℤ))}

theorem sent_append (answer : Option (ι × Option ℤ)) (cl : ι) : sent (answers ++ [answer]) cl = sent answers cl + passed cl answer := by
  rw [sent, List.map_append, List.sum_append, List.map_singleton, List.sum_singleton, sent]

theorem run_visits (inside : 0 ≤ p ∧ p ≤ s.maxprio) (along : (w.machine s).Along (fun t o => Backlogged p t o ∧ w.Repaid p t o) t offers)
    (run : (w.machine s).run t offers = some (u, answers)) :
    ReflTransGen (QuotaRound.Visit (w.weight s) s.maxpkt) ⟨t.active p, t.bytesAlloc, 0⟩ ⟨u.active p, u.bytesAlloc, sent answers⟩ := by
  have kept : ∀ v outs o next out,
      ReflTransGen (QuotaRound.Visit (w.weight s) s.maxpkt) ⟨t.active p, t.bytesAlloc, 0⟩ ⟨v.active p, v.bytesAlloc, sent outs⟩ →
      Backlogged p v o ∧ w.Repaid p v o → (w.machine s).step v o = some (next, out) →
      ReflTransGen (QuotaRound.Visit (w.weight s) s.maxpkt) ⟨t.active p, t.bytesAlloc, 0⟩ ⟨next.active p, next.bytesAlloc, sent (outs ++ [out])⟩ := by
    intro v outs o next out before met taken
    have step := deque_visits (sent outs) inside met.1 met.2
    rw [Option.some.inj taken] at step
    rw [funext (sent_append out)]
    exact before.trans step
  rw [← List.nil_append answers]
  exact Machine.run_kept_logged_along kept .refl along run

/-- The weights are in the ratio of the allotments, although they are truncated. -/
def InRatio (w : WRR) (p : ℤ) (t : Rounds s) : Prop :=
  ∀ cl ∈ t.active p, w.weight s cl * ((t.active p).map fun cl => (s.cls cl).allotment).sum =
    (s.cls cl).allotment * ((t.active p).map fun cl => (w.weight s cl : ℚ)).sum

/-- In all runs with such calls, what a class at the priority has sent differs from its share by at most a constant. -/
def Fair (w : WRR) (p : ℤ) (t : Rounds s) (allowed : Rounds s → Offer ι → Prop) : Prop :=
  ∃ C : ℚ, ∀ offers u answers, (w.machine s).Along (fun t o => Backlogged p t o ∧ allowed t o) t offers →
    (w.machine s).run t offers = some (u, answers) → ∀ cl ∈ t.active p,
      |(sent answers cl : ℚ) - (s.cls cl).allotment / ((t.active p).map fun cl => (s.cls cl).allotment).sum *
        ((t.active p).map fun cl => (sent answers cl : ℚ)).sum| ≤ C

/-- Balances and weights of the classes in a ring are bounded. -/
theorem exists_bound (f : ι → ℤ) (l : List ι) : ∃ bound, ∀ i ∈ l, |f i| ≤ bound := by
  obtain ⟨bound, le⟩ := (l.toFinset.image fun i => |f i|).exists_le
  exact ⟨bound, fun i member => le _ (Finset.mem_image_of_mem _ (List.mem_toFinset.mpr member))⟩

theorem fair_of_repaid (positive : ∀ cl ∈ t.active p, 0 < (s.cls cl).allotment) (ratio : InRatio w p t) : Fair w p t (w.Repaid p) := by
  obtain ⟨balances, balanceLe⟩ := exists_bound t.bytesAlloc (t.active p)
  obtain ⟨weights, weightLe⟩ := exists_bound (w.weight s) (t.active p)
  obtain ⟨bound, both⟩ : ∃ bound, max (max balances weights) s.maxpkt = bound := ⟨_, rfl⟩
  have balanceNear (i : ι) (inside : i ∈ t.active p) : |t.bytesAlloc i| ≤ bound := by
    have le := balanceLe i inside
    omega
  have weightNear (i : ι) (inside : i ∈ t.active p) : |w.weight s i| ≤ bound := by
    have le := weightLe i inside
    omega
  refine ⟨((t.active p).length + 1) * (5 * bound), fun offers u answers along run cl member => ?_⟩
  have visits := run_visits (t.scanned p cl member) along run
  have near := share_of_visits visits (t.distinct p) balanceNear weightNear (by omega) positive ratio member
  exact near

end Runs

/-- Two classes with 1/8 and 7/8 of the link, and packets of up to 4 bytes. -/
def uneven : CBQueue Bool where
  cls heavy := ⟨none, none, true, 1, if heavy then 7 / 8 else 1 / 8, 0, 0, 0, 1, true⟩
  active _ := none
  levels _ := []
  maxprio := 0
  maxpkt := 4
  maxlevel := 1
  toplevelLimit := 32
  eligible := .none
  link := some 8000

def unevenWeights : WRR where
  alloc prio := if prio = 0 then 1 else 0
  M prio := if prio = 0 then 8 else 0
  cnt prio := if prio = 0 then 2 else 0

def unevenStart : Rounds uneven where
  active prio := if prio = 0 then [false, true] else []
  distinct prio := by split_ifs <;> decide
  pri prio cl member := by
    split_ifs at member with zero
    · exact zero.symm
    · cases member
  scanned prio cl member := by
    split_ifs at member with zero
    · exact ⟨zero.ge, zero.le⟩
    · cases member
  bytesAlloc _ := 0

theorem fair_of_repaid_sample : Fair unevenWeights 0 unevenStart (unevenWeights.Repaid 0) :=
  fair_of_repaid (by decide +kernel) (by unfold InRatio; decide +kernel)

/-- The light class has packets of 4 bytes, the heavy one has a packet of this size. -/
def unevenOffer (size : ℤ) : Offer Bool := ⟨fun _ => 1, fun _ _ => true, fun heavy => some (if heavy then size else 4)⟩

def period : List (Offer Bool) := [4, 4, 3, 4, 3].map unevenOffer

def periodAnswers : List (Option (Bool × Option ℤ)) :=
  [some (false, some 4), some (true, some 4), some (true, some 3), some (true, some 4), some (true, some 3)]

/-- With packets of 4 bytes and a quantum of 1, the light class goes into debt by 3 bytes, of which 2 are forgiven in the next round. -/
theorem run_period : (unevenWeights.machine uneven).run unevenStart period = some (unevenStart, periodAnswers) := by
  have known : ((unevenWeights.machine uneven).run unevenStart period).map
      (fun end_ => (decide (end_.1.active 0 = [false, true] ∧ ∀ cl, end_.1.bytesAlloc cl = 0), end_.2)) = some (true, periodAnswers) := by
    decide +kernel
  obtain ⟨⟨t, answers⟩, run, same⟩ := Option.map_eq_some_iff.mp known
  obtain ⟨held, rfl⟩ := Prod.mk.inj same
  obtain ⟨ring, zero⟩ := of_decide_eq_true held
  have back : t = unevenStart := by
    refine Rounds.ext (funext fun prio => ?_) (funext zero)
    by_cases first : prio = 0
    · rw [first, ring]
      rfl
    · have empty : t.active prio = [] := by
        refine List.eq_nil_iff_forall_not_mem.mpr fun cl member => first ?_
        exact (t.pri prio cl member).symm
      rw [empty]
      exact (if_neg first).symm
  rw [run, back]

theorem run_periods (n : ℕ) : (unevenWeights.machine uneven).run unevenStart (List.replicate n period).flatten =
    some (unevenStart, (List.replicate n periodAnswers).flatten) := by
  induction n with
  | zero => rfl
  | succ n ih =>
    rw [List.replicate_succ, List.flatten_cons, Machine.run_append run_period, ih]
    rfl

theorem sent_periods (n : ℕ) (cl : Bool) : sent (List.replicate n periodAnswers).flatten cl = n * sent periodAnswers cl := by
  induction n with
  | zero => simp [sent]
  | succ n ih =>
    rw [List.replicate_succ, List.flatten_cons, sent, List.map_append, List.sum_append]
    rw [sent] at ih
    rw [ih, ← sent]
    push_cast
    ring

theorem backlogged_uneven {t : Rounds uneven} {size : ℤ} (positive : 0 < size) (within : size ≤ 4) :
    Backlogged 0 t (unevenOffer size) := by
  refine fun cl _ => ⟨⟨rfl, fun _ => rfl⟩, _, rfl, ?_⟩
  cases cl with
  | false => exact ⟨show (0 : ℤ) < 4 by decide, show (4 : ℤ) ≤ 4 by decide⟩
  | true => exact ⟨positive, within⟩

theorem along_periods (n : ℕ) : (unevenWeights.machine uneven).Along (fun t o => Backlogged 0 t o ∧ True) unevenStart
    (List.replicate n period).flatten := by
  have proper : ∀ o ∈ (List.replicate n period).flatten, ∃ size, 0 < size ∧ size ≤ 4 ∧ o = unevenOffer size := by
    intro o member
    obtain ⟨_, copy, listed⟩ := List.mem_flatten.mp member
    rw [List.eq_of_mem_replicate copy] at listed
    obtain ⟨size, packet, rfl⟩ := List.mem_map.mp listed
    have bounds : ∀ size ∈ [(4 : ℤ), 4, 3, 4, 3], 0 < size ∧ size ≤ 4 := by decide
    exact ⟨size, (bounds size packet).1, (bounds size packet).2, rfl⟩
  refine (Machine.along_of_forall proper).mono fun t o met => ⟨?_, trivial⟩
  obtain ⟨size, positive, within, rfl⟩ := met
  exact backlogged_uneven positive within

theorem setM_uneven : unevenWeights.setM uneven = some unevenWeights := by
  rw [setM, if_neg (by decide +kernel)]
  refine congrArg some (WRR.ext rfl (funext fun i => ?_) rfl)
  by_cases zero : i = 0
  · rw [zero]
    decide +kernel
  · have outside : ¬(0 ≤ i ∧ i ≤ uneven.maxprio) := fun both => zero (le_antisymm both.2 both.1)
    exact if_neg outside

/-- Per period the light class sends 4 of 18 bytes, where 1/8 of them is its share. -/
theorem debts_forgiven : (∀ cl, 0 < (uneven.cls cl).allotment) ∧ unevenWeights.setM uneven = some unevenWeights ∧
    InRatio unevenWeights 0 unevenStart ∧ ¬Fair unevenWeights 0 unevenStart fun _ _ => True := by
  refine ⟨by decide +kernel, setM_uneven, by unfold InRatio; decide +kernel, ?_⟩
  rintro ⟨C, fair⟩
  obtain ⟨n, more⟩ := exists_nat_gt C
  have near := fair _ _ _ (along_periods n) (run_periods n) false List.mem_cons_self
  have light : (sent (List.replicate n periodAnswers).flatten false : ℚ) = n * 4 := by
    rw [sent_periods]
    exact Int.cast_mul ..
  have heavy : (sent (List.replicate n periodAnswers).flatten true : ℚ) = n * 14 := by
    rw [sent_periods]
    exact Int.cast_mul ..
  have share : (sent (List.replicate n periodAnswers).flatten false : ℚ) -
      (uneven.cls false).allotment / ((unevenStart.active 0).map fun cl => (uneven.cls cl).allotment).sum *
        ((unevenStart.active 0).map fun cl => (sent (List.replicate n periodAnswers).flatten cl : ℚ)).sum = n * (7 / 4) := by
    have members : unevenStart.active 0 = [false, true] := rfl
    have lightAllotment : (uneven.cls false).allotment = 1 / 8 := rfl
    have heavyAllotment : (uneven.cls true).allotment = 7 / 8 := rfl
    simp only [members, List.map_cons, List.map_nil, List.sum_cons, List.sum_nil, light, heavy, lightAllotment, heavyAllotment]
    ring
  rw [share] at near
  have positive : (0 : ℚ) ≤ n := Nat.cast_nonneg n
  have lower := (le_abs_self _).trans near
  linarith

end Ns2.WRR
