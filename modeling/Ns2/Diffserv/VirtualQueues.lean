import Mathlib.Algebra.BigOperators.Group.Finset.Piecewise
import Mathlib.Tactic.Common
import Ns2.Diffserv.DsRed

namespace Ns2

namespace RedQueue

/-- Only averages, probabilities and counts of packets since the last drop have changed. -/
structure Alike (s t : RedQueue) : Prop where
  numPrec : t.numPrec = s.numPrec
  qlim : t.qlim = s.qlim
  mredMode : t.mredMode = s.mredMode
  queue : t.queue = s.queue
  qlen : ∀ i, (t.qParam i).qlen = (s.qParam i).qlen
  idle : ∀ i, (t.qParam i).idle = (s.qParam i).idle

variable {s t mid : RedQueue} {now u : ℚ} {pkt : DsPacket} {prec i : ℕ} {ecn : Bool} {f : QParam → QParam}

theorem Alike.refl (s : RedQueue) : Alike s s := ⟨rfl, rfl, rfl, rfl, fun _ => rfl, fun _ => rfl⟩

theorem Alike.trans (first : Alike s mid) (second : Alike mid t) : Alike s t where
  numPrec := second.numPrec.trans first.numPrec
  qlim := second.qlim.trans first.qlim
  mredMode := second.mredMode.trans first.mredMode
  queue := second.queue.trans first.queue
  qlen i := (second.qlen i).trans (first.qlen i)
  idle i := (second.idle i).trans (first.idle i)

theorem modify_self : (s.modify prec f).qParam prec = f (s.qParam prec) := Function.update_self ..

theorem modify_other (other : i ≠ prec) : (s.modify prec f).qParam i = s.qParam i := Function.update_of_ne other ..

/-- What the change leaves alone in one virtual queue is the same in all of them. -/
theorem modify_kept {α : Type*} (g : QParam → α) (kept : ∀ p, g (f p) = g p) (i : ℕ) : g ((s.modify prec f).qParam i) = g (s.qParam i) := by
  rcases eq_or_ne i prec with rfl | other
  · rw [modify_self, kept]
  · rw [modify_other other]

theorem alike_modify (s : RedQueue) (prec : ℕ) (qlen : ∀ p, (f p).qlen = p.qlen) (idle : ∀ p, (f p).idle = p.idle) : Alike s (s.modify prec f) :=
  ⟨rfl, rfl, rfl, rfl, modify_kept QParam.qlen qlen, modify_kept QParam.idle idle⟩

theorem alike_age (now : ℚ) (s : RedQueue) (prec : ℕ) : Alike s (s.age now prec) := by
  unfold age calcAvg
  dsimp only
  split
  · refine ⟨rfl, rfl, rfl, rfl, fun i => ?_, fun i => ?_⟩
    · dsimp only
      split_ifs <;> rfl
    · dsimp only
      split_ifs <;> rfl
  · exact alike_modify s prec (by intro p; rfl) (by intro p; rfl)

theorem alike_findAvg (s : RedQueue) (now : ℚ) (prec : ℕ) : Alike s (s.findAvg now prec) := by
  unfold findAvg
  split
  · exact .refl s
  · induction List.range' prec (s.numPrec - prec) using List.reverseRecOn with
    | nil => exact .refl s
    | append_singleton l i ih =>
      rw [List.foldl_append, List.foldl_cons, List.foldl_nil]
      exact ih.trans (alike_age now _ i)
  · exact alike_age now s prec
  · exact alike_age now s 0

/-- The virtual queues whose idle flag a packet of the precedence clears. -/
def clears (s : RedQueue) (prec i : ℕ) : Prop :=
  match s.mredMode with
  | .rioC => prec ≤ i ∧ i < s.numPrec
  | .rioD => i = prec
  | _ => i = 0

/-- The packet has been stored. -/
structure Stored (s t : RedQueue) (pkt : DsPacket) (prec : ℕ) : Prop where
  numPrec : t.numPrec = s.numPrec
  qlim : t.qlim = s.qlim
  mredMode : t.mredMode = s.mredMode
  queue : t.queue = s.queue ++ [pkt]
  qlen : ∀ i, (t.qParam i).qlen = (s.qParam i).qlen + if i = prec then 1 else 0
  idle : ∀ i, (t.qParam i).idle = true ↔ (s.qParam i).idle = true ∧ ¬s.clears prec i

theorem updateIdleFlag_idle (s : RedQueue) (prec i : ℕ) :
    ((s.updateIdleFlag prec).qParam i).idle = true ↔ (s.qParam i).idle = true ∧ ¬s.clears prec i := by
  unfold updateIdleFlag clears
  cases s.mredMode with
  | rioC =>
    dsimp only
    split_ifs with within <;> simp [within]
  | rioD =>
    rcases eq_or_ne i prec with rfl | other
    · simp [modify_self]
    · simp [modify_other other, other]
  | wred | dropTail =>
    rcases eq_or_ne i 0 with rfl | other
    · simp [modify_self]
    · simp [modify_other other, other]

theorem updateIdleFlag_qlen (s : RedQueue) (prec i : ℕ) : ((s.updateIdleFlag prec).qParam i).qlen = (s.qParam i).qlen := by
  unfold updateIdleFlag
  split
  · dsimp only
    split_ifs <;> rfl
  · exact modify_kept QParam.qlen (by intro p; rfl) i
  · exact modify_kept QParam.qlen (by intro p; rfl) i

theorem updateIdleFlag_rest (s : RedQueue) (prec : ℕ) : (s.updateIdleFlag prec).numPrec = s.numPrec ∧
    (s.updateIdleFlag prec).qlim = s.qlim ∧ (s.updateIdleFlag prec).mredMode = s.mredMode ∧ (s.updateIdleFlag prec).queue = s.queue := by
  unfold updateIdleFlag
  split <;> exact ⟨rfl, rfl, rfl, rfl⟩

theorem store_qParam (s : RedQueue) (pkt : DsPacket) (prec : ℕ) :
    (s.store pkt prec).qParam = (s.modify prec fun p => { p with qlen := p.qlen + 1 }).qParam := rfl

theorem store_qlen (s : RedQueue) (pkt : DsPacket) (prec i : ℕ) :
    ((s.store pkt prec).qParam i).qlen = (s.qParam i).qlen + if i = prec then 1 else 0 := by
  rw [store_qParam]
  split_ifs with same
  · rw [same, modify_self]
  · rw [add_zero, modify_other same]

theorem Alike.stored (alike : Alike s mid) (behind : Alike (mid.store pkt prec) t) : Stored s (t.updateIdleFlag prec) pkt prec := by
  obtain ⟨numPrec, qlim, mredMode, queue⟩ := updateIdleFlag_rest t prec
  refine ⟨?_, ?_, ?_, ?_, fun i => ?_, fun i => ?_⟩
  · rw [numPrec, behind.numPrec]
    exact alike.numPrec
  · rw [qlim, behind.qlim]
    exact alike.qlim
  · rw [mredMode, behind.mredMode]
    exact alike.mredMode
  · rw [queue, behind.queue]
    exact congrArg (· ++ [pkt]) alike.queue
  · rw [updateIdleFlag_qlen, behind.qlen, store_qlen, alike.qlen]
  · have kept : ((mid.store pkt prec).qParam i).idle = (mid.qParam i).idle := by
      rw [store_qParam]
      exact modify_kept QParam.idle (by intro p; rfl) i
    have cleared : t.clears prec i ↔ s.clears prec i := by
      rw [clears, clears, behind.mredMode, behind.numPrec, show (mid.store pkt prec).mredMode = s.mredMode from alike.mredMode,
        show (mid.store pkt prec).numPrec = s.numPrec from alike.numPrec]
    rw [updateIdleFlag_idle, behind.idle, kept, alike.idle, cleared]

/-- What `enque` makes of a packet. -/
inductive Outcome (s : RedQueue) (pkt : DsPacket) (prec : ℕ) : RedQueue × Verdict → Prop
  | stored {t : RedQueue} {verdict : Verdict} (room : s.queue.length < s.qlim) (accepted : verdict = .enqueued ∨ verdict = .marked)
      (stored : Stored s t pkt prec) : Outcome s pkt prec (t, verdict)
  | lost {t : RedQueue} {verdict : Verdict} (refused : verdict = .dropped ∨ verdict = .edropped) (alike : Alike s t) :
      Outcome s pkt prec (t, verdict)

theorem outcome_accept (room : s.queue.length < s.qlim) (alike : Alike s mid)
    (behind : Alike (if ecn then mid.store pkt prec else mid) t) : Outcome s pkt prec (t.accept pkt prec ecn, .enqueued) := by
  refine .stored room (Or.inl rfl) ?_
  cases ecn with
  | true => exact alike.stored behind
  | false => exact (alike.trans behind).stored (.refl _)

theorem outcome_reject {verdict : Verdict} (refused : verdict = .dropped ∨ verdict = .edropped) (room : s.queue.length < s.qlim)
    (alike : Alike s mid) (behind : Alike (if ecn then mid.store pkt prec else mid) t) : Outcome s pkt prec (t.reject prec ecn verdict) := by
  cases ecn with
  | true => exact .stored room (Or.inr rfl) (alike.stored behind)
  | false => exact .lost refused (alike.trans behind)

theorem judge_outcome (u : ℚ) (room : s.queue.length < s.qlim) (alike : Alike s mid) (same : t = if ecn then mid.store pkt prec else mid) :
    Outcome s pkt prec (t.judge u pkt prec ecn) := by
  have unchanged {f : QParam → QParam} (qlen : ∀ p, (f p).qlen = p.qlen) (idle : ∀ p, (f p).idle = p.idle) :
      Alike (if ecn then mid.store pkt prec else mid) (t.modify prec f) := same ▸ alike_modify t prec qlen idle
  unfold judge
  dsimp only
  split_ifs
  · exact outcome_reject (Or.inr rfl) room alike (unchanged (by intro p; rfl) (by intro p; rfl))
  · exact outcome_accept room alike (unchanged (by intro p; rfl) (by intro p; rfl))
  · exact outcome_reject (Or.inl rfl) room alike (unchanged (by intro p; rfl) (by intro p; rfl))
  · exact outcome_accept room alike (unchanged (by intro p; rfl) (by intro p; rfl))

theorem enque_outcome (s : RedQueue) (now u : ℚ) (pkt : DsPacket) (prec : ℕ) (ecn : Bool) : Outcome s pkt prec (s.enque now u pkt prec ecn) := by
  rw [enque]
  split_ifs with full tail
  · exact .lost (Or.inl rfl) (.refl s)
  · exact .lost (Or.inl rfl) (.refl s)
  · exact judge_outcome u (by omega) (alike_findAvg s now prec) (if_pos ‹_›).symm
  · exact judge_outcome u (by omega) (alike_findAvg s now prec) (if_neg ‹_›).symm

/-- Only idle flags have been set, with their times. -/
structure Idled (s t : RedQueue) (whose : ℕ → Prop) : Prop where
  numPrec : t.numPrec = s.numPrec
  qlim : t.qlim = s.qlim
  mredMode : t.mredMode = s.mredMode
  queue : t.queue = s.queue
  qlen : ∀ i, (t.qParam i).qlen = (s.qParam i).qlen
  idle : ∀ i, (t.qParam i).idle = true ↔ (s.qParam i).idle = true ∨ whose i

theorem Idled.congr {whose other : ℕ → Prop} (idled : Idled s t whose) (same : ∀ i, whose i ↔ other i) : Idled s t other :=
  ⟨idled.numPrec, idled.qlim, idled.mredMode, idled.queue, idled.qlen, fun i => (idled.idle i).trans (or_congr_right (same i))⟩

theorem idled_nobody (s : RedQueue) : Idled s s fun _ => False := ⟨rfl, rfl, rfl, rfl, fun _ => rfl, fun _ => (or_iff_left id).symm⟩

theorem idled_modify (s : RedQueue) (now : ℚ) (prec : ℕ) :
    Idled s (s.modify prec fun p => { p with idle := true, idletime := now }) fun i => i = prec := by
  refine ⟨rfl, rfl, rfl, rfl, modify_kept QParam.qlen (by intro p; rfl), fun i => ?_⟩
  rcases eq_or_ne i prec with rfl | other
  · rw [modify_self]
    exact iff_of_true rfl (Or.inr rfl)
  · rw [modify_other other, or_iff_left other]

theorem idled_setIdle (s : RedQueue) (now : ℚ) (n first : ℕ) :
    Idled s (setIdle now n first s) fun i => first ≤ i ∧ i < first + n ∧ ∀ j, first ≤ j → j ≤ i → (s.qParam j).qlen = 0 := by
  induction n generalizing s first with
  | zero => exact (idled_nobody s).congr fun i => iff_of_false id (by omega)
  | succ n ih =>
    rw [setIdle]
    split_ifs with empty
    · have here := idled_modify s now first
      have rest := ih (s.modify first fun p => { p with idle := true, idletime := now }) (first + 1)
      refine ⟨rest.numPrec.trans here.numPrec, rest.qlim.trans here.qlim, rest.mredMode.trans here.mredMode, rest.queue.trans here.queue,
        fun i => (rest.qlen i).trans (here.qlen i), fun i => ?_⟩
      rw [rest.idle, here.idle, or_assoc]
      simp only [here.qlen]
      refine or_congr_right ⟨?_, ?_⟩
      · rintro (rfl | ⟨low, high, all⟩)
        · refine ⟨le_rfl, by omega, fun j low high => ?_⟩
          rwa [show j = i by omega]
        · refine ⟨by omega, by omega, fun j low' high' => ?_⟩
          rcases eq_or_lt_of_le low' with rfl | later
          · exact empty
          · exact all j later high'
      · rintro ⟨low, high, all⟩
        rcases eq_or_lt_of_le low with rfl | later
        · exact Or.inl rfl
        · exact Or.inr ⟨later, by omega, fun j low' high' => all j (by omega) high'⟩
    · refine (idled_nobody s).congr fun i => iff_of_false id ?_
      rintro ⟨low, _, all⟩
      exact empty (all first le_rfl low)

/-- The virtual queues that become idle with the one of the precedence. -/
def BecomesIdle (s : RedQueue) (prec i : ℕ) : Prop :=
  (s.qParam prec).qlen = 0 ∧
    match s.mredMode with
    | .rioC => prec ≤ i ∧ i < s.numPrec ∧ ∀ j ≤ i, (s.qParam j).qlen = 0
    | .rioD => i = prec
    | .wred => i = 0
    | .dropTail => False

theorem idled_updateREDStateVar (s : RedQueue) (now : ℚ) (prec : ℕ) : Idled s (s.updateREDStateVar now prec) (s.BecomesIdle prec) := by
  unfold updateREDStateVar BecomesIdle
  by_cases empty : (s.qParam prec).qlen = 0
  · rw [if_pos empty]
    cases s.mredMode with
    | rioC =>
      dsimp only
      split_ifs with below
      · refine (idled_setIdle s now (s.numPrec - prec) prec).congr fun i => ?_
        rw [and_iff_right empty]
        refine ⟨fun ⟨low, high, all⟩ => ⟨low, by omega, fun j high' => ?_⟩, fun ⟨low, high, all⟩ => ⟨low, by omega, fun j _ high' => all j high'⟩⟩
        rcases Nat.lt_or_ge j prec with less | more
        · exact below j less
        · exact all j more high'
      · refine (idled_nobody s).congr fun i => iff_of_false id ?_
        rintro ⟨_, low, _, all⟩
        exact below fun j less => all j (less.le.trans low)
    | rioD => exact (idled_modify s now prec).congr fun i => (and_iff_right empty).symm
    | wred => exact (idled_modify s now 0).congr fun i => (and_iff_right empty).symm
    | dropTail => exact (idled_nobody s).congr fun i => iff_of_false id And.right
  · rw [if_neg empty]
    exact (idled_nobody s).congr fun i => iff_of_false id fun both => empty both.1

/-- A packet of the precedence has left. -/
structure Left (s t : RedQueue) (prec : ℕ) : Prop where
  numPrec : t.numPrec = s.numPrec
  qlim : t.qlim = s.qlim
  mredMode : t.mredMode = s.mredMode
  queue : t.queue = s.queue.tail
  qlen : ∀ i, (t.qParam i).qlen = (s.qParam i).qlen - if i = prec then 1 else 0
  idle : ∀ i, (t.qParam i).idle = true ↔ (s.qParam i).idle = true ∨ t.BecomesIdle prec i

theorem left_deque (s : RedQueue) (now : ℚ) (prec : ℕ) : Left s (s.deque now prec) prec := by
  have idled := idled_updateREDStateVar ({ s with queue := s.queue.tail }.updateVREDLen prec) now prec
  have flags (i : ℕ) : (({ s with queue := s.queue.tail }.updateVREDLen prec).qParam i).idle = (s.qParam i).idle :=
    modify_kept (s := { s with queue := s.queue.tail }) QParam.idle (by intro p; rfl) i
  refine ⟨idled.numPrec, idled.qlim, idled.mredMode, idled.queue, fun i => ?_, fun i => ?_⟩
  · rw [deque, idled.qlen, updateVREDLen]
    split_ifs with same
    · rw [same, modify_self]
    · rw [modify_other same, sub_zero]
  · have same : (s.deque now prec).BecomesIdle prec i ↔ ({ s with queue := s.queue.tail }.updateVREDLen prec).BecomesIdle prec i := by
      simp only [BecomesIdle, deque, idled.qlen, idled.mredMode, idled.numPrec]
    rw [same, deque, idled.idle, flags]

section Lengths

variable {precOf : DsPacket → ℕ}

/-- Each virtual queue is as long as there are packets of its precedence. -/
structure Counted (precOf : DsPacket → ℕ) (s : RedQueue) : Prop where
  precs : ∀ p ∈ s.queue, precOf p < s.numPrec
  qlen : ∀ i < s.numPrec, (s.qParam i).qlen = s.queue.countP fun p => precOf p = i
  room : s.queue.length ≤ s.qlim

/-- The idle flags say which of the queues that the averages describe are empty. -/
def IdleKnown (precOf : DsPacket → ℕ) (s : RedQueue) : Prop :=
  match s.mredMode with
  | .rioC => ∀ i < s.numPrec, (s.qParam i).idle = true ↔ ∀ p ∈ s.queue, i < precOf p
  | .rioD => ∀ i < s.numPrec, (s.qParam i).idle = true ↔ ∀ p ∈ s.queue, precOf p ≠ i
  | .wred => (s.qParam 0).idle = true ↔ s.queue = []
  | .dropTail => True

/-- The virtual queues have as many packets as the physical one. -/
theorem Counted.total (counted : s.Counted precOf) : ∑ i ∈ Finset.range s.numPrec, (s.qParam i).qlen = s.queue.length := by
  have each (l : List DsPacket) (within : ∀ p ∈ l, precOf p < s.numPrec) :
      ∑ i ∈ Finset.range s.numPrec, ((l.countP fun p => precOf p = i : ℕ) : ℤ) = l.length := by
    induction l with
    | nil => simp
    | cons p l ih =>
      obtain ⟨here, rest⟩ := List.forall_mem_cons.mp within
      simp only [List.countP_cons, Nat.cast_add, Finset.sum_add_distrib, ih rest, List.length_cons]
      simp [here]
  rw [← each s.queue counted.precs]
  exact Finset.sum_congr rfl fun i member => counted.qlen i (Finset.mem_range.mp member)

theorem Counted.qlen_eq_zero_iff (counted : s.Counted precOf) (low : i < s.numPrec) :
    (s.qParam i).qlen = 0 ↔ ∀ p ∈ s.queue, precOf p ≠ i := by
  rw [counted.qlen i low, Int.natCast_eq_zero, List.countP_eq_zero]
  simp

theorem Alike.counted (alike : Alike s t) (counted : s.Counted precOf) : t.Counted precOf :=
  ⟨by rw [alike.queue, alike.numPrec]; exact counted.precs, fun i low => by
    rw [alike.qlen, alike.queue]; exact counted.qlen i (alike.numPrec ▸ low), by rw [alike.queue, alike.qlim]; exact counted.room⟩

theorem Alike.idleKnown (alike : Alike s t) : t.IdleKnown precOf ↔ s.IdleKnown precOf := by
  unfold IdleKnown
  rw [alike.mredMode, alike.numPrec, alike.queue]
  simp only [alike.idle]

theorem Stored.counted (stored : Stored s t pkt prec) (counted : s.Counted precOf) (low : precOf pkt < s.numPrec) (own : precOf pkt = prec)
    (room : s.queue.length < s.qlim) : t.Counted precOf := by
  refine ⟨?_, fun i low' => ?_, ?_⟩
  · rw [stored.queue, stored.numPrec]
    exact List.forall_mem_append.mpr ⟨counted.precs, by simpa using low⟩
  · rw [stored.numPrec] at low'
    rw [stored.qlen, stored.queue, counted.qlen i low', List.countP_append, List.countP_singleton, own]
    rcases eq_or_ne i prec with rfl | other
    · simp
    · simp [other, other.symm]
  · rw [stored.queue, stored.qlim, List.length_append]
    exact room

theorem Stored.idleKnown (stored : Stored s t pkt prec) (known : s.IdleKnown precOf) (own : precOf pkt = prec) : t.IdleKnown precOf := by
  unfold IdleKnown at known ⊢
  rw [stored.mredMode, stored.numPrec, stored.queue]
  simp only [stored.idle, clears]
  cases mode : s.mredMode with
  | rioC =>
    rw [mode] at known
    intro i low
    rw [known i low, List.forall_mem_append, List.forall_mem_singleton, own]
    exact and_congr_right fun _ => ⟨fun outside => not_le.mp fun above => outside ⟨above, low⟩, fun less within => absurd less (not_lt.mpr within.1)⟩
  | rioD =>
    rw [mode] at known
    intro i low
    rw [known i low, List.forall_mem_append, List.forall_mem_singleton, own]
    exact and_congr_right fun _ => not_congr eq_comm
  | wred => simp
  | dropTail => trivial

variable {rest : List DsPacket}

theorem Left.counted (left : Left s t prec) (counted : s.Counted precOf) (front : s.queue = pkt :: rest) (own : precOf pkt = prec) :
    t.Counted precOf := by
  have tail : t.queue = rest := by rw [left.queue, front, List.tail_cons]
  have precs := counted.precs
  have room := counted.room
  rw [front] at precs room
  refine ⟨?_, fun i low => ?_, ?_⟩
  · rw [tail, left.numPrec]
    exact (List.forall_mem_cons.mp precs).2
  · rw [left.numPrec] at low
    rw [left.qlen, tail, counted.qlen i low, front, List.countP_cons, own]
    rcases eq_or_ne i prec with rfl | other
    · simp
    · simp [other, other.symm]
  · rw [tail, left.qlim]
    exact (Nat.le_succ _).trans room

/-- Only with WRED a packet that leaves may make an idle flag wrong: when its virtual queue is empty then and the physical one is not. -/
theorem Left.idleKnown_iff (left : Left s t prec) (counted : s.Counted precOf) (known : s.IdleKnown precOf) (front : s.queue = pkt :: rest)
    (own : precOf pkt = prec) : t.IdleKnown precOf ↔ (s.mredMode = .wred → (s.qParam prec).qlen = 1 → s.queue.length = 1) := by
  have after := left.counted counted front own
  have low : prec < t.numPrec := by
    rw [left.numPrec, ← own]
    exact counted.precs pkt (by rw [front]; exact List.mem_cons_self)
  have tail : t.queue = rest := by rw [left.queue, front, List.tail_cons]
  unfold IdleKnown at known ⊢
  simp only [left.idle, BecomesIdle, left.mredMode]
  cases mode : s.mredMode with
  | rioC =>
    rw [mode, ← left.numPrec] at known
    refine iff_of_true (fun i low' => ?_) (fun wred => by cases wred)
    rw [known i low', front, tail, List.forall_mem_cons, own]
    constructor
    · rintro (⟨_, all⟩ | ⟨_, _, _, empty⟩)
      · exact all
      · intro p member
        by_contra small
        have high := not_lt.mp small
        exact (after.qlen_eq_zero_iff (high.trans_lt low')).mp (empty _ high) p (tail ▸ member) rfl
    · intro all
      rcases Nat.lt_or_ge i prec with less | more
      · exact Or.inl ⟨less, all⟩
      · have empty (j : ℕ) (high : j ≤ i) : (t.qParam j).qlen = 0 := by
          refine (after.qlen_eq_zero_iff (high.trans_lt low')).mpr fun p member same => ?_
          exact absurd (all p (tail ▸ member)) (by omega)
        exact Or.inr ⟨empty prec more, more, low', empty⟩
  | rioD =>
    rw [mode, ← left.numPrec] at known
    refine iff_of_true (fun i low' => ?_) (fun wred => by cases wred)
    rw [known i low', front, tail, List.forall_mem_cons, own]
    constructor
    · rintro (⟨_, all⟩ | ⟨empty, rfl⟩)
      · exact all
      · exact tail ▸ (after.qlen_eq_zero_iff low').mp empty
    · intro all
      rcases eq_or_ne i prec with rfl | other
      · exact Or.inr ⟨(after.qlen_eq_zero_iff low').mpr (tail ▸ all), rfl⟩
      · exact Or.inl ⟨other.symm, all⟩
  | wred =>
    rw [mode] at known
    have busy : ¬(s.qParam 0).idle = true := fun idle => by
      rw [known.mp idle] at front
      cases front
    have fewer : (t.qParam prec).qlen = 0 ↔ (s.qParam prec).qlen = 1 := by
      rw [left.qlen, if_pos rfl]
      omega
    have single : s.queue.length = 1 ↔ rest = [] := by
      rw [front, List.length_cons, Nat.add_eq_right, List.length_eq_zero_iff]
    dsimp only
    rw [or_iff_right busy, and_true, fewer, tail, single]
    refine ⟨fun same _ => same.mp, fun enough => ⟨enough rfl, fun none => ?_⟩⟩
    have empty := (after.qlen_eq_zero_iff low).mpr (by rw [tail, none]; exact List.forall_mem_nil _)
    exact fewer.mp empty
  | dropTail => exact iff_of_true trivial (fun wred => by cases wred)

end Lengths

end RedQueue

namespace DsREDQueue

open RedQueue

/-- The precedence that a table gives to a packet. -/
def precIn (s : DsREDQueue) (pkt : DsPacket) : ℕ := ((s.lookupPHBTable pkt.codePt).getD (0, 0)).2

/-- The queues are configured and empty, and the entries of the table lead to virtual queues that are configured. -/
structure Configured (s : DsREDQueue) : Prop where
  numQueues : s.numQueues ≤ MAX_QUEUES
  phb : ∀ e ∈ s.phb, e.queue < MAX_QUEUES ∧ e.prec < (s.redq e.queue).numPrec
  numPrec : ∀ q < MAX_QUEUES, 0 < (s.redq q).numPrec ∧ (s.redq q).numPrec ≤ MAX_PREC
  empty : ∀ q < MAX_QUEUES, (s.redq q).queue = []
  virtual : ∀ q < MAX_QUEUES, ∀ i < (s.redq q).numPrec, ((s.redq q).qParam i).qlen = 0 ∧ ((s.redq q).qParam i).idle = true

/-- The lengths and the idle flags of one physical queue are right. -/
structure Accounted (precOf : DsPacket → ℕ) (r : RedQueue) : Prop where
  total : ∑ i ∈ Finset.range r.numPrec, (r.qParam i).qlen = r.queue.length
  each : ∀ i < r.numPrec, (r.qParam i).qlen = r.queue.countP fun p => precOf p = i
  room : r.queue.length ≤ r.qlim
  idle : r.IdleKnown precOf

def AllAccounted (s : DsREDQueue) : Prop := ∀ q < MAX_QUEUES, Accounted s.precIn (s.redq q)

/-- An arriving packet is stored, dropped or dropped early, and not more than one of these. -/
def Disposed (s : DsREDQueue) : DsCall → Prop
  | .enque now u pkt => ∀ t verdict, s.enque now u pkt = some (t, verdict) → ∃ q prec, s.lookupPHBTable pkt.codePt = some (q, prec) ∧
      (∀ k ≠ q, t.redq k = s.redq k) ∧
      ((t.redq q).queue = (s.redq q).queue ++ [pkt] ∧ t.drops = s.drops ∧ t.edrops = s.edrops ∨
        (t.redq q).queue = (s.redq q).queue ∧ t.drops = s.drops ++ [pkt] ∧ t.edrops = s.edrops ∨
        (t.redq q).queue = (s.redq q).queue ∧ t.drops = s.drops ∧ t.edrops = s.edrops ++ [pkt])
  | .deque _ => True

/-- With WRED the packet that leaves does not empty its virtual queue while there are others in the physical queue. -/
def LeavesCompany (s : DsREDQueue) : DsCall → Prop
  | .enque _ _ _ => True
  | .deque _ =>
    let q := s.selectQueueToDeque.qToDq
    q < s.numQueues → (s.redq q).mredMode = .wred → ∀ pkt ∈ (s.redq q).queue.head?, ∀ found ∈ s.lookupPHBTable pkt.codePt,
      ((s.redq q).qParam found.2).qlen = 1 → s.length q = 1

instance (s : DsREDQueue) : ∀ call, Decidable (s.LeavesCompany call)
  | .enque _ _ _ => isTrue trivial
  | .deque _ => inferInstanceAs (Decidable (_ → _ → ∀ pkt ∈ _, ∀ found ∈ _, _ → _))

/-- The table and the numbers of precedences are those of the start, and every packet is where the table sends it. -/
structure Placed (start s : DsREDQueue) : Prop where
  phb : s.phb = start.phb
  numQueues : s.numQueues = start.numQueues
  numPrec : ∀ q, (s.redq q).numPrec = (start.redq q).numPrec
  counted : ∀ q < MAX_QUEUES, (s.redq q).Counted s.precIn
  placed : ∀ q < MAX_QUEUES, ∀ p ∈ (s.redq q).queue, ∃ prec, s.lookupPHBTable p.codePt = some (q, prec)

variable {start s t : DsREDQueue} {now u : ℚ} {pkt : DsPacket} {q prec : ℕ}

theorem precIn_of_lookup (found : s.lookupPHBTable pkt.codePt = some (q, prec)) : s.precIn pkt = prec := by
  rw [precIn, found]
  rfl

theorem Configured.lookup (configured : start.Configured) (found : start.lookupPHBTable pkt.codePt = some (q, prec)) :
    q < MAX_QUEUES ∧ prec < (start.redq q).numPrec := by
  obtain ⟨e, known, same⟩ := Option.map_eq_some_iff.mp found
  cases same
  exact configured.phb e (List.mem_of_find?_eq_some known)

theorem lookup_congr (same : t.phb = s.phb) (codePt : ℤ) : t.lookupPHBTable codePt = s.lookupPHBTable codePt := by
  rw [lookupPHBTable, lookupPHBTable, same]

theorem precIn_congr (same : t.phb = s.phb) : t.precIn = s.precIn := by
  funext pkt
  rw [precIn, precIn, lookup_congr same]

theorem allAccounted_iff (placed : Placed start s) : s.AllAccounted ↔ ∀ q < MAX_QUEUES, (s.redq q).IdleKnown s.precIn := by
  refine ⟨fun all q low => (all q low).idle, fun idle q low => ?_⟩
  have counted := placed.counted q low
  exact ⟨counted.total, counted.qlen, counted.room, idle q low⟩

/-- One physical queue changes. -/
theorem Placed.change (placed : Placed start s) (phb : t.phb = s.phb) (numQueues : t.numQueues = s.numQueues) {r : RedQueue}
    (redq : t.redq = Function.update s.redq q r) (numPrec : r.numPrec = (s.redq q).numPrec) (counted : r.Counted s.precIn)
    (members : ∀ p ∈ r.queue, ∃ prec, s.lookupPHBTable p.codePt = some (q, prec)) : Placed start t := by
  refine ⟨phb.trans placed.phb, numQueues.trans placed.numQueues, fun k => ?_, fun k low => ?_, fun k low p member => ?_⟩
  · rw [redq, Function.update_apply]
    split_ifs with same
    · rw [numPrec, ← same, placed.numPrec]
    · exact placed.numPrec k
  · rw [precIn_congr phb, redq, Function.update_apply]
    split_ifs with same
    · exact counted
    · exact placed.counted k low
  · rw [lookup_congr phb]
    rw [redq, Function.update_apply] at member
    split_ifs at member with same
    · rw [same]
      exact members p member
    · exact placed.placed k low p member

theorem idleKnown_change (phb : t.phb = s.phb) {r : RedQueue} (redq : t.redq = Function.update s.redq q r) (low : q < MAX_QUEUES)
    (known : ∀ k < MAX_QUEUES, (s.redq k).IdleKnown s.precIn) :
    (∀ k < MAX_QUEUES, (t.redq k).IdleKnown t.precIn) ↔ r.IdleKnown s.precIn := by
  rw [precIn_congr phb, redq]
  constructor
  · intro all
    have here := all q low
    rwa [Function.update_self] at here
  · intro here k low'
    rw [Function.update_apply]
    split_ifs
    · exact here
    · exact known k low'

theorem enque_cases {verdict : Verdict} (taken : s.enque now u pkt = some (t, verdict)) : ∃ q prec r,
    s.lookupPHBTable pkt.codePt = some (q, prec) ∧ (s.redq q).Outcome pkt prec (r, verdict) ∧ t.redq = Function.update s.redq q r ∧
      t.phb = s.phb ∧ t.numQueues = s.numQueues ∧ t.drops = s.drops ++ (if verdict = .dropped then [pkt] else []) ∧
      t.edrops = s.edrops ++ (if verdict = .edropped then [pkt] else []) := by
  obtain ⟨⟨q, prec⟩, found, rest⟩ := Option.bind_eq_some_iff.mp taken
  have outcome := enque_outcome (s.redq q) now u pkt prec (s.ecn && pkt.ect)
  dsimp only at rest
  generalize (s.redq q).enque now u pkt prec (s.ecn && pkt.ect) = result at rest outcome
  obtain ⟨r, verdict'⟩ := result
  refine ⟨q, prec, r, found, ?_⟩
  cases verdict' <;> cases rest <;> exact ⟨outcome, rfl, rfl, rfl, by simp [setQueue], by simp [setQueue]⟩

theorem disposed (s : DsREDQueue) (call : DsCall) : s.Disposed call := by
  cases call with
  | deque now => trivial
  | enque now u pkt =>
    intro t verdict taken
    obtain ⟨q, prec, r, found, outcome, redq, _, _, drops, edrops⟩ := enque_cases taken
    have here : t.redq q = r := by rw [redq, Function.update_self]
    refine ⟨q, prec, found, fun k other => by rw [redq, Function.update_of_ne other], ?_⟩
    rw [here, drops, edrops]
    cases outcome with
    | stored room accepted stored =>
      left
      rcases accepted with rfl | rfl <;> simp [stored.queue]
    | lost refused alike =>
      right
      rcases refused with rfl | rfl <;> simp [alike.queue]

theorem Placed.enque {verdict : Verdict} (configured : start.Configured) (placed : Placed start s)
    (known : ∀ k < MAX_QUEUES, (s.redq k).IdleKnown s.precIn) (taken : s.enque now u pkt = some (t, verdict)) :
    Placed start t ∧ ∀ k < MAX_QUEUES, (t.redq k).IdleKnown t.precIn := by
  obtain ⟨q, prec, r, found, outcome, redq, phb, numQueues, _⟩ := enque_cases taken
  obtain ⟨low, within⟩ := configured.lookup (lookup_congr placed.phb _ ▸ found)
  have own := precIn_of_lookup found
  have counted := placed.counted q low
  rw [← placed.numPrec, ← own] at within
  rw [idleKnown_change phb redq low known]
  cases outcome with
  | stored room accepted stored =>
    refine ⟨placed.change phb numQueues redq stored.numPrec (stored.counted counted within own room) ?_, stored.idleKnown (known q low) own⟩
    rw [stored.queue]
    exact List.forall_mem_append.mpr ⟨placed.placed q low, List.forall_mem_singleton.mpr ⟨prec, found⟩⟩
  | lost refused alike =>
    refine ⟨placed.change phb numQueues redq alike.numPrec (alike.counted counted) ?_, alike.idleKnown.mpr (known q low)⟩
    rw [alike.queue]
    exact placed.placed q low

theorem Placed.same {t : DsREDQueue} (placed : Placed start s) (same : Scheduled s t) : Placed start t := by
  obtain ⟨phb, numQueues, numPrec, counted, members⟩ := placed
  refine ⟨same.phb.trans phb, same.numQueues.trans numQueues, ?_, ?_, ?_⟩
  · rwa [same.redq]
  · rwa [same.redq, precIn_congr same.phb]
  · simpa only [same.redq, lookup_congr same.phb] using members

theorem Placed.deque {answer : Option DsPacket} (configured : start.Configured) (placed : Placed start s)
    (known : ∀ k < MAX_QUEUES, (s.redq k).IdleKnown s.precIn) (taken : s.deque now = some (t, answer)) :
    Placed start t ∧ ((∀ k < MAX_QUEUES, (t.redq k).IdleKnown t.precIn) ↔ s.LeavesCompany (.deque now)) := by
  have same := scheduled_select s
  rcases deque_cases taken with ⟨_, rfl, empty⟩ | ⟨pkt, _, sent⟩
  · refine ⟨placed.same same, iff_of_true ?_ fun inUse _ p front => ?_⟩
    · rwa [same.redq, precIn_congr same.phb]
    · have none := List.length_eq_zero_iff.mp (empty (same.numQueues ▸ inUse))
      rw [same.redq] at none
      rw [none] at front
      cases front
  · obtain ⟨inUse, front, ⟨q, prec, found, redq⟩, _, ⟨numQueues, phb, _⟩, _⟩ := sent
    rw [same.redq] at front redq
    rw [lookup_congr same.phb] at found
    have inUse' : s.selectQueueToDeque.qToDq < s.numQueues := same.numQueues ▸ inUse
    have low : s.selectQueueToDeque.qToDq < MAX_QUEUES := (placed.numQueues ▸ inUse').trans_le configured.numQueues
    have own := precIn_of_lookup found
    have counted := placed.counted _ low
    obtain ⟨rest, queue⟩ : ∃ rest, (s.redq s.selectQueueToDeque.qToDq).queue = pkt :: rest := List.head?_eq_some_iff.mp front
    have left := left_deque (s.redq s.selectQueueToDeque.qToDq) now prec
    have phb' := phb.trans same.phb
    rw [idleKnown_change phb' redq low known, left.idleKnown_iff counted (known _ low) queue own]
    refine ⟨placed.change phb' (numQueues.trans same.numQueues) redq left.numPrec (left.counted counted queue own) ?_, ?_⟩
    · rw [left.queue, queue, List.tail_cons]
      intro p member
      exact placed.placed _ low p (by rw [queue]; exact List.mem_cons_of_mem pkt member)
    · constructor
      · intro enough _ wred p here found' looked
        cases front.symm.trans here
        cases found.symm.trans looked
        exact enough wred
      · exact fun enough wred => enough inUse' wred pkt front (q, prec) found

theorem Configured.placed (configured : start.Configured) : Placed start start ∧ start.AllAccounted := by
  have counted (q : ℕ) (low : q < MAX_QUEUES) : (start.redq q).Counted start.precIn := by
    have empty := configured.empty q low
    refine ⟨by rw [empty]; exact List.forall_mem_nil _, fun i inUse => ?_, by rw [empty]; exact Nat.zero_le _⟩
    rw [empty, (configured.virtual q low i inUse).1]
    rfl
  have placed : Placed start start := ⟨rfl, rfl, fun _ => rfl, counted, fun q low p member => by
    rw [configured.empty q low] at member
    cases member⟩
  refine ⟨placed, (allAccounted_iff placed).mpr fun q low => ?_⟩
  have idle (i : ℕ) (inUse : i < (start.redq q).numPrec) := (configured.virtual q low i inUse).2
  unfold IdleKnown
  rw [configured.empty q low]
  split
  · exact fun i inUse => iff_of_true (idle i inUse) (List.forall_mem_nil _)
  · exact fun i inUse => iff_of_true (idle i inUse) (List.forall_mem_nil _)
  · exact iff_of_true (idle 0 (configured.numPrec q low).1) rfl
  · trivial

/-- Of the runs from a configured router exactly those keep the lengths and the idle flags right, for every physical queue, in which WRED
never loses the last packet of a precedence before the others. What becomes of an arriving packet is always one thing. -/
theorem accounted_iff {calls : List DsCall} {last : DsREDQueue} {answers : List (Verdict ⊕ Option DsPacket)}
    (configured : start.Configured) (run : component.run start calls = some (last, answers)) :
    component.Throughout AllAccounted start calls ∧ component.Along Disposed start calls ↔ component.Along LeavesCompany start calls := by
  obtain ⟨placed, accounted⟩ := configured.placed
  rw [and_iff_left (Machine.along_of_kept (P := fun _ _ => True) (I := fun _ => True) (fun _ _ _ _ _ _ _ => trivial)
    (fun s call _ _ => s.disposed call) trivial (component.along_trivial start calls))]
  refine Machine.throughout_iff_along_of_run (K := Placed start) (fun s call next answer placed accounted taken => ?_) run placed accounted
  have known := (allAccounted_iff placed).mp accounted
  cases call with
  | enque now u pkt =>
    obtain ⟨⟨t, verdict⟩, done, same⟩ := Option.map_eq_some_iff.mp taken
    cases same
    obtain ⟨after, idle⟩ := placed.enque configured known done
    exact ⟨after, iff_of_true ((allAccounted_iff after).mpr idle) trivial⟩
  | deque now =>
    obtain ⟨⟨t, sent⟩, done, same⟩ := Option.map_eq_some_iff.mp taken
    cases same
    obtain ⟨after, idle⟩ := placed.deque configured known done
    exact ⟨after, (allAccounted_iff after).trans idle⟩

theorem configured_sample (mode : MredMode) (schedMode : SchedMode) : (sample mode schedMode).Configured where
  numQueues := show 2 ≤ 8 by decide
  phb := show ∀ e ∈ ([⟨10, 0, 0⟩, ⟨11, 0, 1⟩, ⟨20, 1, 0⟩] : List PhbParam), e.queue < 8 ∧ e.prec < 2 by decide
  numPrec _ _ := show 0 < 2 ∧ 2 ≤ 3 by decide
  empty q _ := rfl
  virtual q _ i inUse := by
    have low : i < 2 := inUse
    obtain rfl | rfl : i = 0 ∨ i = 1 := by omega
    · exact ⟨rfl, rfl⟩
    · exact ⟨rfl, rfl⟩

/-- With RIO-C it does not matter what leaves first. -/
theorem accounted_iff_sample : component.Throughout AllAccounted (sample .rioC .RR) [arrive 10, arrive 11, .deque 1, .deque 2] ∧
    component.Along Disposed (sample .rioC .RR) [arrive 10, arrive 11, .deque 1, .deque 2] := by
  have runs : (component.run (sample .rioC .RR) [arrive 10, arrive 11, .deque 1, .deque 2]).isSome := by decide +kernel
  obtain ⟨⟨last, answers⟩, run⟩ := Option.isSome_iff_exists.mp runs
  exact (accounted_iff (configured_sample .rioC .RR) run).mpr (by decide +kernel)

/-- With WRED the first packet leaves its virtual queue empty, and the idle flag is set while the other packet waits. -/
theorem wred_idle : let calls := [arrive 10, arrive 11, .deque 1]
    ((component.run (sample .wred .RR) calls).map fun r => ((r.1.redq 0).mredMode, ((r.1.redq 0).qParam 0).idle, (r.1.redq 0).queue.length)) =
      some (.wred, true, 1) ∧ ¬component.Throughout AllAccounted (sample .wred .RR) calls := by
  intro calls
  have reached : ((component.run (sample .wred .RR) calls).map fun r =>
      ((r.1.redq 0).mredMode, ((r.1.redq 0).qParam 0).idle, (r.1.redq 0).queue.length)) = some (.wred, true, 1) := by decide +kernel
  refine ⟨reached, fun all => ?_⟩
  obtain ⟨⟨last, answers⟩, run, same⟩ := Option.map_eq_some_iff.mp reached
  obtain ⟨mode, idle, length⟩ := Prod.mk.inj (same.trans rfl) |>.imp id Prod.mk.inj
  have known := (all calls [] last answers (List.append_nil _).symm run 0 (by decide)).idle
  unfold RedQueue.IdleKnown at known
  rw [mode] at known
  rw [known.mp idle] at length
  cases length

/-- The physical queue that a packet is for. -/
def queueOf (s : DsREDQueue) (pkt : DsPacket) : Option ℕ := (s.lookupPHBTable pkt.codePt).map Prod.fst

/-- The packet of a call, if it has been stored for a physical queue. -/
def comes (s : DsREDQueue) (q : ℕ) : DsCall × (Verdict ⊕ Option DsPacket) → List DsPacket
  | (.enque _ _ pkt, .inl verdict) => if s.queueOf pkt = some q ∧ (verdict = .enqueued ∨ verdict = .marked) then [pkt] else []
  | _ => []

/-- The packet that has been sent, if it is one of a physical queue. -/
def goes (s : DsREDQueue) (q : ℕ) : Verdict ⊕ Option DsPacket → List DsPacket
  | .inr (some pkt) => if s.queueOf pkt = some q then [pkt] else []
  | _ => []

/-- Every packet waits in its own physical queue. -/
def Sorted (s : DsREDQueue) : Prop := ∀ q, ∀ pkt ∈ (s.redq q).queue, s.queueOf pkt = some q

theorem fifo_step {call : DsCall} {answer : Verdict ⊕ Option DsPacket} (sorted : s.Sorted)
    (taken : component.step s call = some (t, answer)) (q : ℕ) : t.phb = s.phb ∧
      (s.redq q).queue ++ s.comes q (call, answer) = s.goes q answer ++ (t.redq q).queue := by
  cases call with
  | enque now u pkt =>
    obtain ⟨⟨t, verdict⟩, done, same⟩ := Option.map_eq_some_iff.mp taken
    cases same
    obtain ⟨q', prec, r, found, outcome, redq, phb, -⟩ := enque_cases done
    have own : s.queueOf pkt = some q' := by rw [queueOf, found, Option.map_some]
    refine ⟨phb, ?_⟩
    change (s.redq q).queue ++ (if _ then _ else _) = (t.redq q).queue
    rw [redq, own]
    by_cases here : q = q'
    · subst here
      rw [Function.update_self]
      cases outcome with
      | stored room accepted stored => rw [if_pos ⟨rfl, accepted⟩, stored.queue]
      | lost refused alike => rcases refused with rfl | rfl <;> simp [alike.queue]
    · rw [Function.update_of_ne here, if_neg fun both => here (Option.some.inj both.1).symm, List.append_nil]
  | deque now =>
    obtain ⟨⟨t, sent⟩, done, same⟩ := Option.map_eq_some_iff.mp taken
    cases same
    have unchanged := scheduled_select s
    change _ ∧ (s.redq q).queue ++ [] = _
    rw [List.append_nil]
    rcases deque_cases done with ⟨rfl, rfl, -⟩ | ⟨pkt, rfl, -, front, ⟨_, prec, -, redq⟩, -, ⟨-, phb, -⟩, -⟩
    · exact ⟨unchanged.phb, congrArg (fun redq => (redq q).queue) unchanged.redq.symm⟩
    · rw [unchanged.redq] at front redq
      generalize s.selectQueueToDeque.qToDq = q' at front redq
      obtain ⟨rest, queue⟩ : ∃ rest, (s.redq q').queue = pkt :: rest := List.head?_eq_some_iff.mp front
      refine ⟨phb.trans unchanged.phb, ?_⟩
      rw [redq, goes, sorted q' pkt (by rw [queue]; exact List.mem_cons_self)]
      by_cases here : q = q'
      · rw [here, if_pos rfl, Function.update_self, (left_deque _ now prec).queue, queue]
        rfl
      · rw [if_neg fun same => here (Option.some.inj same).symm, Function.update_of_ne here, List.nil_append]

theorem Sorted.step {call : DsCall} {answer : Verdict ⊕ Option DsPacket} (sorted : s.Sorted)
    (taken : component.step s call = some (t, answer)) : t.queueOf = s.queueOf ∧ t.Sorted := by
  have same : t.queueOf = s.queueOf := by
    funext pkt
    rw [queueOf, lookup_congr (fifo_step sorted taken 0).1, queueOf]
  refine ⟨same, fun q pkt member => ?_⟩
  have before := List.mem_append_right (s.goes q answer) member
  rw [← (fifo_step sorted taken q).2] at before
  rw [same]
  rcases List.mem_append.mp before with old | new
  · exact sorted q pkt old
  · unfold comes at new
    split at new
    · obtain ⟨⟨own, -⟩, here⟩ := List.mem_ite_nil_right.mp new
      rwa [List.mem_singleton.mp here]
    · cases new

/-- Every physical queue is first in, first out: nothing that is stored is lost, sent twice or overtaken. -/
theorem queues_fifo {calls : List DsCall} {last : DsREDQueue} {answers : List (Verdict ⊕ Option DsPacket)} (sorted : start.Sorted)
    (ran : component.run start calls = some (last, answers)) (q : ℕ) :
    (start.redq q).queue ++ (calls.zip answers).flatMap (start.comes q) = answers.flatMap (start.goes q) ++ (last.redq q).queue := by
  induction calls generalizing start answers with
  | nil =>
    cases Option.some.inj ran
    exact List.append_nil _
  | cons call calls ih =>
    obtain ⟨⟨mid, answer⟩, taken, rest⟩ := Option.bind_eq_some_iff.mp ran
    obtain ⟨⟨final, others⟩, finished, joined⟩ := Option.bind_eq_some_iff.mp rest
    cases Option.some.inj joined
    obtain ⟨same, sorted'⟩ := sorted.step taken
    have later := ih sorted' finished
    unfold comes goes at later
    rw [same] at later
    rw [List.zip_cons_cons, List.flatMap_cons, List.flatMap_cons, ← List.append_assoc, (fifo_step sorted taken q).2, List.append_assoc,
      List.append_assoc]
    exact congrArg _ later

/-- The second queue is served while the first one is empty. -/
theorem queues_fifo_sample : ∃ last answers, component.run (sample .rioC .RR) [arrive 10, arrive 20, .deque 1] = some (last, answers) ∧
    ([arrive 10, arrive 20, .deque 1].zip answers).flatMap ((sample .rioC .RR).comes 0) =
      answers.flatMap ((sample .rioC .RR).goes 0) ++ (last.redq 0).queue := by
  have runs : (component.run (sample .rioC .RR) [arrive 10, arrive 20, .deque 1]).isSome := by decide +kernel
  obtain ⟨⟨last, answers⟩, run⟩ := Option.isSome_iff_exists.mp runs
  exact ⟨last, answers, run, queues_fifo (fun _ _ none => absurd none List.not_mem_nil) run 0⟩

end DsREDQueue

end Ns2
