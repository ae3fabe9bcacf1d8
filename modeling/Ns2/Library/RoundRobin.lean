import Mathlib.Data.List.Nodup
import Mathlib.Algebra.BigOperators.Ring.List
import Mathlib.Algebra.Order.BigOperators.Group.List
import Mathlib.Algebra.Order.Field.Basic
import Mathlib.Algebra.Order.Field.Rat
import Mathlib.Algebra.Order.Ring.Abs
import Mathlib.Logic.Relation
import Mathlib.Tactic.Ring

universe u

namespace RoundRobin

variable {ι : Type u}

/-- One event of a round robin over the members of a circle, read from the
one whose turn it is: nothing happens, a member enters behind all others, or
the first one is served and goes to the end or leaves. -/
inductive Turn : List ι → Option ι → List ι → Prop
  | stay (l : List ι) : Turn l none l
  | enter {l : List ι} {k : ι} (absent : k ∉ l) : Turn l none (l ++ [k])
  | serve (a : ι) (t : List ι) : Turn (a :: t) (some a) (t ++ [a])
  | leave (a : ι) (t : List ι) : Turn (a :: t) (some a) t

/-- Events one after another, with `P` before, between and after them. -/
inductive Turns (P : List ι → Prop) : List ι → List (Option ι) → List ι → Prop
  | nil {l : List ι} (holds : P l) : Turns P l [] l
  | cons {l m n : List ι} {served : Option ι} {rest : List (Option ι)} (holds : P l) (first : Turn l served m)
      (later : Turns P m rest n) : Turns P l (served :: rest) n

variable {l m : List ι} {served : Option ι} {services : List (Option ι)} {b c a : ι} {t : List ι}

theorem Turn.nodup (turn : Turn l served m) (distinct : l.Nodup) : m.Nodup := by
  cases turn with
  | stay => exact distinct
  | enter absent => exact List.nodup_append_comm.mp (List.nodup_cons.mpr ⟨absent, distinct⟩)
  | serve a t => exact List.nodup_append_comm.mp distinct
  | leave a t => exact (List.nodup_cons.mp distinct).2

theorem Turns.start {P : List ι → Prop} (turns : Turns P l services m) : P l := by
  cases turns with
  | nil holds => exact holds
  | cons holds _ _ => exact holds

theorem Turns.nodup {P : List ι → Prop} (turns : Turns P l services m) (distinct : l.Nodup) : m.Nodup := by
  induction turns with
  | nil => exact distinct
  | cons _ first _ ih => exact ih (first.nodup distinct)

theorem pair_of_mem (member : c ∈ t) (b : ι) : [c, b].Sublist (t ++ [b]) :=
  (List.singleton_sublist.mpr member).append_right [b]

theorem pair_of_ne (apart : a ≠ c) (pair : [c, b].Sublist (a :: t)) : [c, b].Sublist t := by
  cases pair with
  | cons _ rest => exact rest
  | cons_cons => exact absurd rfl apart

theorem pair_head (distinct : (b :: t).Nodup) : ¬ [c, b].Sublist (b :: t) := by
  intro pair
  have last : [b].Sublist t := by
    cases pair with
    | cons _ rest => exact (List.sublist_cons_self c [b]).trans rest
    | cons_cons _ rest => exact rest
  exact (List.nodup_cons.mp distinct).1 (List.singleton_sublist.mp last)

variable [DecidableEq ι]

/-- Behind a member that is not served, another one is not served either. -/
theorem Turns.behind (turns : Turns (fun l => b ∈ l ∧ c ∈ l) l services m) (distinct : l.Nodup)
    (absent : some b ∉ services) (pair : [b, c].Sublist l) : [b, c].Sublist m ∧ services.count (some c) = 0 := by
  induction turns with
  | nil => exact ⟨pair, rfl⟩
  | cons holds first later ih =>
    obtain ⟨notFirst, notLater⟩ := not_or.mp (mt List.mem_cons.mpr absent)
    have next := ih (first.nodup distinct) notLater
    cases first with
    | stay => exact ⟨(next pair).1, by rw [List.count_cons_of_ne (by simp), (next pair).2]⟩
    | enter =>
      have kept := next (pair.trans (List.sublist_append_left _ _))
      exact ⟨kept.1, by rw [List.count_cons_of_ne (by simp), kept.2]⟩
    | serve a t =>
      have notB : a ≠ b := fun same => notFirst (by rw [same])
      have notC : a ≠ c := by
        rintro rfl
        exact pair_head distinct pair
      have kept := next ((pair_of_ne notB pair).trans (List.sublist_append_left _ _))
      exact ⟨kept.1, by rw [List.count_cons_of_ne (by simpa using notC), kept.2]⟩
    | leave a t =>
      have notB : a ≠ b := fun same => notFirst (by rw [same])
      have notC : a ≠ c := by
        rintro rfl
        exact pair_head distinct pair
      have kept := next (pair_of_ne notB pair)
      exact ⟨kept.1, by rw [List.count_cons_of_ne (by simpa using notC), kept.2]⟩

/-- As long as both stay and the one behind is not served, the one before it
is served at most once, and is behind it then. -/
theorem Turns.before (turns : Turns (fun l => b ∈ l ∧ c ∈ l) l services m) (distinct : l.Nodup)
    (absent : some b ∉ services) (pair : [c, b].Sublist l) :
    [c, b].Sublist m ∨ services.count (some c) = 1 := by
  induction turns with
  | nil => exact Or.inl pair
  | cons holds first later ih =>
    obtain ⟨notFirst, notLater⟩ := not_or.mp (mt List.mem_cons.mpr absent)
    have remaining := first.nodup distinct
    have next := ih remaining notLater
    cases first with
    | stay => exact (next pair).imp_right fun once => by rw [List.count_cons_of_ne (by simp), once]
    | enter =>
      exact (next (pair.trans (List.sublist_append_left _ _))).imp_right fun once => by
        rw [List.count_cons_of_ne (by simp), once]
    | serve a t =>
      by_cases isC : a = c
      · subst isC
        have last : b ∈ t := by
          cases pair with
          | cons _ rest => exact absurd (rest.subset List.mem_cons_self) (List.nodup_cons.mp distinct).1
          | cons_cons _ rest => exact List.singleton_sublist.mp rest
        have rest := later.behind remaining notLater (pair_of_mem last a)
        exact Or.inr (by rw [List.count_cons_self, rest.2])
      · have kept := (pair_of_ne isC pair).trans (List.sublist_append_left t [a])
        exact (next kept).imp_right fun once => by rw [List.count_cons_of_ne (by simpa using isC), once]
    | leave a t =>
      by_cases isC : a = c
      · subst isC
        exact absurd later.start.2 (List.nodup_cons.mp distinct).1
      · exact (next (pair_of_ne isC pair)).imp_right fun once => by
          rw [List.count_cons_of_ne (by simpa using isC), once]

/-- A member that stays is served before one that is behind it, or not there
at first. -/
theorem Turns.first (turns : Turns (fun l => c ∈ l) l services m) (absent : some b ∉ services)
    (start : b ∉ l ∨ [c, b].Sublist l) : (b ∉ m ∨ [c, b].Sublist m) ∨ some c ∈ services := by
  induction turns with
  | nil => exact Or.inl start
  | cons holds first later ih =>
    obtain ⟨notFirst, notLater⟩ := not_or.mp (mt List.mem_cons.mpr absent)
    have next := ih notLater
    cases first with
    | stay => exact (next start).imp_right (List.mem_cons_of_mem _)
    | @enter _ k _ =>
      refine (next ?_).imp_right (List.mem_cons_of_mem _)
      by_cases isB : k = b
      · exact Or.inr (isB ▸ pair_of_mem holds k)
      · refine start.imp (fun outside member => ?_) fun pair => pair.trans (List.sublist_append_left _ _)
        exact (List.mem_append.mp member).elim outside fun last => isB (List.mem_singleton.mp last).symm
    | serve a t =>
      by_cases isC : a = c
      · exact Or.inr (isC ▸ List.mem_cons_self)
      · refine (next (start.imp (fun outside member => outside ?_) fun pair =>
          (pair_of_ne isC pair).trans (List.sublist_append_left _ _))).imp_right (List.mem_cons_of_mem _)
        exact List.mem_cons.mpr ((List.mem_append.mp member).symm.imp List.mem_singleton.mp id)
    | leave a t =>
      by_cases isC : a = c
      · exact Or.inr (isC ▸ List.mem_cons_self)
      · exact (next (start.imp (fun outside member => outside (List.mem_cons_of_mem a member)) fun pair =>
          pair_of_ne isC pair)).imp_right (List.mem_cons_of_mem _)

omit [DecidableEq ι] in
/-- Right after its own service a member is behind every other one, or gone. -/
theorem Turn.after_service (turn : Turn l (some b) m) (distinct : l.Nodup) (member : c ∈ m) (apart : c ≠ b) :
    b ∉ m ∨ [c, b].Sublist m := by
  cases turn with
  | serve _ t =>
    have inside := (List.mem_append.mp member).resolve_right (mt List.mem_singleton.mp apart)
    exact Or.inr (pair_of_mem inside b)
  | leave => exact Or.inl (List.nodup_cons.mp distinct).1

/-- Between two services of `b` a member that stays is served, and once only
when `b` stays as well. -/
theorem Turns.between (turns : Turns (fun l => c ∈ l) l services (b :: t)) (distinct : l.Nodup)
    (absent : some b ∉ services) (start : b ∉ l ∨ [c, b].Sublist l) : some c ∈ services := by
  have last := turns.nodup distinct
  refine (turns.first absent start).resolve_left ?_
  rintro (outside | pair)
  · exact outside List.mem_cons_self
  · exact pair_head last pair

theorem Turns.once (turns : Turns (fun l => b ∈ l ∧ c ∈ l) l services (b :: t)) (distinct : l.Nodup)
    (absent : some b ∉ services) (start : b ∉ l ∨ [c, b].Sublist l) : services.count (some c) = 1 := by
  have pair := start.resolve_left fun outside => outside turns.start.1
  exact (turns.before distinct absent pair).resolve_left (pair_head (turns.nodup distinct))

/-- On laps of `n` places, what is short and the way to the place where it gets less. -/
theorem lap_lt {n short short' way way' : ℕ} (within : way' < n) (nearer : way = 0 ∧ short' < short ∨ short' ≤ short ∧ way' < way) :
    n * short' + way' < n * short + way := by
  rcases nearer with ⟨here, less⟩ | ⟨kept, closer⟩
  · have lap := Nat.mul_le_mul_left n less
    rw [Nat.mul_succ] at lap
    omega
  · have laps := Nat.mul_le_mul_left n kept
    omega

end RoundRobin

namespace QuotaRound

/-- Members take turns in a line. `balance` is what each may still send before its turn is over, `sent` what it has sent. -/
structure Round (ι : Type u) where
  line : List ι
  balance : ι → ℤ
  sent : ι → ℤ

variable {ι : Type u}

def topped (quantum balance : ι → ℤ) (i : ι) : ℤ := if balance i ≤ 0 then balance i + quantum i else balance i

/-- The first of the line whose balance is not 0 when topped up may send. -/
def Solvent (quantum balance : ι → ℤ) : List ι → Prop
  | [] => False
  | h :: t => 0 < topped quantum balance h ∨ topped quantum balance h = 0 ∧ Solvent quantum balance t

/-- What a member was to send in the turns that are over. -/
def due (quantum balance sent : ι → ℤ) (i : ι) : ℤ := sent i + if 0 < balance i then balance i - quantum i else balance i

/-- The members at the front of the line have had `n` turns, the others one more. -/
structure Even (quantum base : ι → ℤ) (bound n : ℤ) (s : Round ι) : Prop where
  distinct : s.line.Nodup
  turns : ∃ front back, s.line = front ++ back ∧ (∀ i ∈ front, due quantum s.balance s.sent i = base i + n * quantum i) ∧
    ∀ i ∈ back, due quantum s.balance s.sent i = base i + (n + 1) * quantum i
  bounded : ∀ i ∈ s.line, |s.balance i| ≤ bound

variable {quantum base balance balance' sent sent' : ι → ℤ} {largest bound n size : ℤ} {s s' : Round ι} {h i : ι} {t : List ι}

theorem topped_congr (same : balance' i = balance i) : topped quantum balance' i = topped quantum balance i := by
  rw [topped, topped, same]

theorem Solvent.congr (solvent : Solvent quantum balance t) (same : ∀ i ∈ t, balance' i = balance i) : Solvent quantum balance' t := by
  induction t with
  | nil => exact solvent
  | cons h t ih =>
    obtain ⟨first, rest⟩ := List.forall_mem_cons.mp same
    rw [Solvent, topped_congr first]
    exact solvent.imp_right fun ⟨zero, later⟩ => ⟨zero, ih later rest⟩

theorem topped_le (low : |balance i| ≤ bound) (quanta : |quantum i| ≤ bound) : topped quantum balance i ≤ bound := by
  have balanceLe := (abs_le.mp low).2
  have quantumLe := (abs_le.mp quanta).2
  have balanceGe := (abs_nonneg (balance i)).trans low
  unfold topped
  split_ifs <;> omega

/-- With the quantum that the member has just got, all is due that it has sent and may still send. -/
theorem due_topped : due quantum balance sent i + quantum i = sent i + topped quantum balance i := by
  unfold due topped
  split_ifs <;> omega

theorem due_of_pos (positive : 0 < balance i) : due quantum balance sent i = sent i + (balance i - quantum i) := by
  rw [due, if_pos positive]

theorem due_of_nonpos (used : balance i ≤ 0) : due quantum balance sent i = sent i + balance i := by
  rw [due, if_neg (not_lt.mpr used)]

theorem due_congr (balances : balance' i = balance i) (sents : sent' i = sent i) :
    due quantum balance' sent' i = due quantum balance sent i := by
  rw [due, due, balances, sents]

theorem due_near (sent : ι → ℤ) (low : |balance i| ≤ bound) (quanta : |quantum i| ≤ bound) : |sent i - due quantum balance sent i| ≤ bound + bound := by
  obtain ⟨balanceGe, balanceLe⟩ := abs_le.mp low
  obtain ⟨quantumGe, quantumLe⟩ := abs_le.mp quanta
  rw [due, abs_le]
  split_ifs <;> constructor <;> omega

/-- The first of the line is one with `n` turns. -/
theorem Even.first (even : Even quantum base bound n ⟨h :: t, balance, sent⟩) :
    ∃ n front back, t = front ++ back ∧ due quantum balance sent h = base h + n * quantum h ∧
      (∀ i ∈ front, due quantum balance sent i = base i + n * quantum i) ∧
      ∀ i ∈ back, due quantum balance sent i = base i + (n + 1) * quantum i := by
  obtain ⟨front, back, split, early, late⟩ := even.turns
  cases front with
  | nil =>
    rw [List.nil_append] at split
    obtain ⟨first, rest⟩ := List.forall_mem_cons.mp (split ▸ late)
    exact ⟨n + 1, t, [], (List.append_nil t).symm, first, rest, fun i member => absurd member List.not_mem_nil⟩
  | cons a front =>
    obtain ⟨rfl, rfl⟩ := List.cons.inj split
    obtain ⟨first, rest⟩ := List.forall_mem_cons.mp early
    exact ⟨n, front, back, rfl, first, rest, late⟩

/-- These members neither get a new balance nor send. -/
structure Kept (members : List ι) (balance balance' sent sent' : ι → ℤ) : Prop where
  balances : ∀ i ∈ members, balance' i = balance i
  sents : ∀ i ∈ members, sent' i = sent i

/-- What may happen to the line. The first of the line gets its quantum if it has used up the last one. It then sends, and keeps its
place as long as something is left. A debt stays in the balance. -/
inductive Visit (quantum : ι → ℤ) (largest : ℤ) : Round ι → Round ι → Prop
  | idle {line : List ι} {balance balance' sent sent' : ι → ℤ} (kept : Kept line balance balance' sent sent') :
      Visit quantum largest ⟨line, balance, sent⟩ ⟨line, balance', sent'⟩
  | skip {h : ι} {t : List ι} {balance balance' sent sent' : ι → ℤ} (kept : Kept t balance balance' sent sent')
      (zero : topped quantum balance h = 0) (left : balance' h = 0) (silent : sent' h = sent h) :
      Visit quantum largest ⟨h :: t, balance, sent⟩ ⟨t ++ [h], balance', sent'⟩
  | stay {h : ι} {t : List ι} {balance balance' sent sent' : ι → ℤ} {size : ℤ} (kept : Kept t balance balance' sent sent')
      (positive : 0 < size) (within : size ≤ largest) (left : balance' h = topped quantum balance h - size)
      (sends : sent' h = sent h + size) (more : 0 < balance' h) :
      Visit quantum largest ⟨h :: t, balance, sent⟩ ⟨h :: t, balance', sent'⟩
  | done {h : ι} {t : List ι} {balance balance' sent sent' : ι → ℤ} {size : ℤ} (kept : Kept t balance balance' sent sent')
      (within : size ≤ largest) (left : balance' h = topped quantum balance h - size) (sends : sent' h = sent h + size)
      (may : 0 < topped quantum balance h) (used : balance' h ≤ 0) :
      Visit quantum largest ⟨h :: t, balance, sent⟩ ⟨t ++ [h], balance', sent'⟩

theorem Kept.due (kept : Kept t balance balance' sent sent') (member : i ∈ t) :
    due quantum balance' sent' i = due quantum balance sent i :=
  due_congr (kept.balances i member) (kept.sents i member)

theorem Kept.bounded (kept : Kept t balance balance' sent sent') (bounded : ∀ i ∈ t, |balance i| ≤ bound) :
    ∀ i ∈ t, |balance' i| ≤ bound := by
  intro i member
  rw [kept.balances i member]
  exact bounded i member

theorem Even.congr {line : List ι} (even : Even quantum base bound n ⟨line, balance, sent⟩)
    (same : ∀ i ∈ line, due quantum balance' sent' i = due quantum balance sent i) (bounded : ∀ i ∈ line, |balance' i| ≤ bound) :
    Even quantum base bound n ⟨line, balance', sent'⟩ := by
  obtain ⟨front, back, (rfl : line = front ++ back), early, late⟩ := even.turns
  refine ⟨even.distinct, ⟨front, back, rfl, fun i member => ?_, fun i member => ?_⟩, bounded⟩
  · exact (same i (List.mem_append_left _ member)).trans (early i member)
  · exact (same i (List.mem_append_right _ member)).trans (late i member)

theorem Even.turn (even : Even quantum base bound n ⟨h :: t, balance, sent⟩) (kept : Kept t balance balance' sent sent')
    (bounded : |balance' h| ≤ bound) (gone : due quantum balance' sent' h = due quantum balance sent h + quantum h) :
    ∃ n, Even quantum base bound n ⟨t ++ [h], balance', sent'⟩ := by
  obtain ⟨n, front, back, rfl, first, early, late⟩ := even.first
  refine ⟨n, List.nodup_append_comm.mp even.distinct, ⟨front, back ++ [h], List.append_assoc .., ?_, ?_⟩, ?_⟩
  · exact fun i member => (kept.due (List.mem_append_left _ member)).trans (early i member)
  · rw [List.forall_mem_append, List.forall_mem_singleton, gone, first]
    refine ⟨fun i member => (kept.due (List.mem_append_right _ member)).trans (late i member), ?_⟩
    ring
  · rw [List.forall_mem_append, List.forall_mem_singleton]
    exact ⟨kept.bounded (List.forall_mem_cons.mp even.bounded).2, bounded⟩

theorem Visit.perm (visit : Visit quantum largest s s') : s'.line.Perm s.line := by
  cases visit with
  | idle => exact List.Perm.refl _
  | skip => exact List.perm_append_singleton ..
  | stay => exact List.Perm.refl _
  | done => exact List.perm_append_singleton ..

/-- A balance after a packet. -/
theorem left_near {before after : ℤ} (balanceLe : before ≤ bound) (within : size ≤ bound) (may : 0 < before)
    (left : after = before - size) (positive : 0 < size ∨ after ≤ 0) : |after| ≤ bound :=
  abs_le.mpr ⟨by omega, by omega⟩

theorem Visit.even (visit : Visit quantum largest s s') (even : Even quantum base bound n s)
    (quanta : ∀ i ∈ s.line, |quantum i| ≤ bound) (largestLe : largest ≤ bound) : ∃ n, Even quantum base bound n s' := by
  cases visit with
  | idle kept => exact ⟨n, even.congr (fun i => kept.due) (kept.bounded even.bounded)⟩
  | @skip h t balance balance' sent sent' kept zero left silent =>
    have nonneg := (abs_nonneg (quantum h)).trans (quanta h List.mem_cons_self)
    refine even.turn kept (by rwa [left, abs_zero]) ?_
    rw [due_topped, zero, due_of_nonpos left.le, left, silent]
  | @stay h t balance balance' sent sent' size kept positive within left sends more =>
    have le : topped quantum balance h ≤ bound := topped_le (even.bounded h List.mem_cons_self) (quanta h List.mem_cons_self)
    have same : due quantum balance' sent' h = due quantum balance sent h := by
      have all : due quantum balance sent h + quantum h = sent h + topped quantum balance h := due_topped
      rw [due_of_pos more, left, sends]
      omega
    have near := left_near le (within.trans largestLe) (by omega) left (Or.inl positive)
    refine ⟨n, even.congr (List.forall_mem_cons.mpr ⟨same, fun i => kept.due⟩) (List.forall_mem_cons.mpr ⟨near, ?_⟩)⟩
    exact kept.bounded (List.forall_mem_cons.mp even.bounded).2
  | @done h t balance balance' sent sent' size kept within left sends may used =>
    have le : topped quantum balance h ≤ bound := topped_le (even.bounded h List.mem_cons_self) (quanta h List.mem_cons_self)
    refine even.turn kept (left_near le (within.trans largestLe) may left (Or.inr used)) ?_
    rw [due_topped, due_of_nonpos used, left, sends]
    omega

theorem perm_of_visits (visits : Relation.ReflTransGen (Visit quantum largest) s s') : s'.line.Perm s.line := by
  induction visits with
  | refl => exact List.Perm.refl _
  | tail _ visit ih => exact visit.perm.trans ih

theorem even_of_visits (visits : Relation.ReflTransGen (Visit quantum largest) s s') (even : Even quantum base bound n s)
    (quanta : ∀ i ∈ s.line, |quantum i| ≤ bound) (largestLe : largest ≤ bound) : ∃ n, Even quantum base bound n s' := by
  induction visits with
  | refl => exact ⟨n, even⟩
  | tail visits visit ih =>
    obtain ⟨n, even⟩ := ih
    exact visit.even even (fun i member => quanta i ((perm_of_visits visits).mem_iff.mp member)) largestLe

theorem even_start {line : List ι} (distinct : line.Nodup) (bounded : ∀ i ∈ line, |balance i| ≤ bound) :
    Even quantum (due quantum balance sent) bound 0 ⟨line, balance, sent⟩ := by
  refine ⟨distinct, ⟨line, [], (List.append_nil line).symm, fun i _ => ?_, fun i member => absurd member List.not_mem_nil⟩, bounded⟩
  rw [zero_mul, add_zero]

theorem Even.near (even : Even quantum base bound n s) (quanta : |quantum i| ≤ bound) (start : |base i| ≤ bound + bound)
    (member : i ∈ s.line) : |s.sent i - n * quantum i| ≤ 5 * bound := by
  obtain ⟨dueGe, dueLe⟩ := abs_le.mp (due_near s.sent (even.bounded i member) quanta)
  obtain ⟨quantumGe, quantumLe⟩ := abs_le.mp quanta
  obtain ⟨startGe, startLe⟩ := abs_le.mp start
  obtain ⟨front, back, split, early, late⟩ := even.turns
  rw [abs_le]
  rw [split] at member
  rcases List.mem_append.mp member with before | after
  · rw [early i before] at dueGe dueLe
    constructor <;> omega
  · rw [late i after, add_mul, one_mul] at dueGe dueLe
    constructor <;> omega

section Shares

variable {weight : ι → ℚ} {line : List ι} {K : ℚ}

theorem abs_sum_sub_le {f g : ι → ℚ} (near : ∀ i ∈ line, |f i - g i| ≤ K) : |(line.map f).sum - (line.map g).sum| ≤ line.length * K := by
  induction line with
  | nil => simp
  | cons i line ih =>
    obtain ⟨first, rest⟩ := List.forall_mem_cons.mp near
    have split : ((i :: line).map f).sum - ((i :: line).map g).sum = (f i - g i) + ((line.map f).sum - (line.map g).sum) := by
      simp only [List.map_cons, List.sum_cons]
      ring
    calc |((i :: line).map f).sum - ((i :: line).map g).sum|
        ≤ |f i - g i| + |(line.map f).sum - (line.map g).sum| := by rw [split]; exact abs_add_le ..
      _ ≤ K + line.length * K := add_le_add first (ih rest)
      _ = (i :: line).length * K := by rw [List.length_cons, Nat.cast_succ]; ring

theorem weight_le_sum (nonneg : ∀ i ∈ line, 0 ≤ weight i) (member : i ∈ line) : weight i ≤ (line.map weight).sum := by
  refine List.single_le_sum ?_ _ (List.mem_map_of_mem member)
  rintro x listed
  obtain ⟨j, inside, rfl⟩ := List.mem_map.mp listed
  exact nonneg j inside

/-- If the quanta are in the ratio of the weights, members that have sent the quanta of nearly the same number of turns have sent
nearly their shares. -/
theorem share_near (positive : ∀ i ∈ line, 0 < weight i)
    (ratio : ∀ i ∈ line, quantum i * (line.map weight).sum = weight i * (line.map fun i => (quantum i : ℚ)).sum)
    (near : ∀ i ∈ line, |(sent i : ℚ) - n * quantum i| ≤ K) (member : i ∈ line) :
    |(sent i : ℚ) - weight i / (line.map weight).sum * (line.map fun i => (sent i : ℚ)).sum| ≤ (line.length + 1) * K := by
  have le : weight i ≤ (line.map weight).sum := weight_le_sum (fun j inside => (positive j inside).le) member
  have total : 0 < (line.map weight).sum := (positive i member).trans_le le
  generalize (line.map weight).sum = W at *
  have turns := abs_sum_sub_le near
  rw [List.sum_map_mul_left] at turns
  have quota : (n : ℚ) * quantum i = weight i / W * (n * (line.map fun i => (quantum i : ℚ)).sum) := by
    rw [div_mul_eq_mul_div, eq_div_iff total.ne', mul_assoc, ratio i member, mul_left_comm]
  have fraction : weight i / W ≤ 1 := (div_le_one total).mpr le
  have fractionNonneg : 0 ≤ weight i / W := div_nonneg (positive i member).le total.le
  calc |(sent i : ℚ) - weight i / W * (line.map fun i => (sent i : ℚ)).sum|
      = |((sent i : ℚ) - n * quantum i) - weight i / W *
          ((line.map fun i => (sent i : ℚ)).sum - n * (line.map fun i => (quantum i : ℚ)).sum)| := by rw [quota]; congr 1; ring
    _ ≤ |(sent i : ℚ) - n * quantum i| + |weight i / W *
          ((line.map fun i => (sent i : ℚ)).sum - n * (line.map fun i => (quantum i : ℚ)).sum)| := abs_sub _ _
    _ ≤ K + 1 * (line.length * K) := by
      refine add_le_add (near i member) ?_
      rw [abs_mul, abs_of_nonneg fractionNonneg]
      exact mul_le_mul fraction turns (abs_nonneg _) zero_le_one
    _ = (line.length + 1) * K := by ring

end Shares

/-- Along visits that carry every debt over, members send their shares up to a constant. -/
theorem share_of_visits {weight : ι → ℚ} {line : List ι} (visits : Relation.ReflTransGen (Visit quantum largest) ⟨line, balance, 0⟩ s)
    (distinct : line.Nodup) (bounded : ∀ i ∈ line, |balance i| ≤ bound) (quanta : ∀ i ∈ line, |quantum i| ≤ bound)
    (largestLe : largest ≤ bound) (positive : ∀ i ∈ line, 0 < weight i)
    (ratio : ∀ i ∈ line, quantum i * (line.map weight).sum = weight i * (line.map fun i => (quantum i : ℚ)).sum) (member : i ∈ line) :
    |(s.sent i : ℚ) - weight i / (line.map weight).sum * (line.map fun i => (s.sent i : ℚ)).sum| ≤ (line.length + 1) * (5 * bound) := by
  obtain ⟨n, even⟩ := even_of_visits visits (even_start distinct bounded) quanta largestLe
  refine share_near positive ratio (n := n) (fun j inside => ?_) member
  have start := due_near 0 (bounded j inside) (quanta j inside)
  rw [Pi.zero_apply, zero_sub, abs_neg] at start
  have near := even.near (quanta j inside) start ((perm_of_visits visits).mem_iff.mpr inside)
  exact_mod_cast near

end QuotaRound
