import Mathlib.Tactic.FieldSimp
import Mathlib.Tactic.Linarith
import Mathlib.Tactic.Positivity
import Ns2.Diffserv.VirtualQueues

namespace Ns2

/-- The calls of a physical queue. -/
inductive RedCall
  | enque (now u : ℚ) (pkt : DsPacket) (prec : ℕ) (ecn : Bool)
  | deque (now : ℚ) (prec : ℕ)

/-- A physical queue, with the average that the last arrival of each precedence has found, if that was in the band and the packet has been
let through. -/
structure Watched where
  red : RedQueue
  last : ℕ → Option ℚ

namespace QParam

/-- The parameters of the early drop, and the number of packets since the last drop. -/
def early (p : QParam) : ℤ × ℤ × ℚ × ℤ := (p.thMin, p.thMax, p.maxPInv, p.count)

/-- The base probability at an average. -/
def probAt (p : QParam) (average : ℚ) : ℚ := 1 / p.maxPInv * (average - p.thMin) / (p.thMax - p.thMin)

/-- `th_min < th_max`, and the greatest probability is positive and not above one. -/
structure Sane (p : QParam) : Prop where
  band : p.thMin < p.thMax
  positive : 0 < 1 / p.maxPInv
  small : 1 / p.maxPInv ≤ 1

/-- What is used for the early drop is well defined and not below the base probability. -/
def Sound (p : QParam) : Prop := 0 < 1 - p.count * p.vProb ∧ p.vProb ≤ p.dropProb

/-- The average stays below the one at which so many packets in a row are too many. -/
def Gentle (p : QParam) : Prop := 0 ≤ p.count + 1 ∧ (p.count + 1) * (1 / p.maxPInv * (p.vAve - p.thMin)) < p.thMax - p.thMin

instance (p : QParam) : Decidable p.Sound := inferInstanceAs (Decidable (_ ∧ _))

instance (p : QParam) : Decidable p.Gentle := inferInstanceAs (Decidable (_ ∧ _))

variable {p : QParam}

theorem early_eq {q : QParam} (same : q.early = p.early) :
    q.thMin = p.thMin ∧ q.thMax = p.thMax ∧ q.maxPInv = p.maxPInv ∧ q.count = p.count := by
  unfold early at same
  simpa only [Prod.mk.injEq] using same

theorem Sane.gap (sane : p.Sane) : (0 : ℚ) < p.thMax - p.thMin := sub_pos.mpr (Int.cast_lt.mpr sane.band)

theorem Sane.prob_pos (sane : p.Sane) {average : ℚ} (above : p.thMin < average) : 0 < p.probAt average :=
  div_pos (mul_pos sane.positive (sub_pos.mpr above)) sane.gap

theorem Sane.prob_mono (sane : p.Sane) {a b : ℚ} (order : a ≤ b) : p.probAt a ≤ p.probAt b :=
  div_le_div_of_nonneg_right (mul_le_mul_of_nonneg_left (sub_le_sub_right order _) sane.positive.le) sane.gap.le

/-- In the band the drop probability is sound exactly if the product of count and base probability is below one. -/
theorem Sane.sound_iff_room (sane : p.Sane) (inBand : p.InBand) :
    p.counted.Sound ↔ 0 ≤ p.count + 1 ∧ ((p.count + 1 : ℤ) : ℚ) * p.probAt p.vAve < 1 := by
  have positive := sane.prob_pos inBand.1
  show 0 < 1 - ((p.count + 1 : ℤ) : ℚ) * p.probAt p.vAve ∧ p.probAt p.vAve ≤ p.probAt p.vAve / (1 - ((p.count + 1 : ℤ) : ℚ) * p.probAt p.vAve) ↔ _
  rw [sub_pos, and_comm]
  refine and_congr_left fun below => ?_
  have room : 0 < 1 - ((p.count + 1 : ℤ) : ℚ) * p.probAt p.vAve := sub_pos.mpr below
  rw [le_div_iff₀ room, mul_le_iff_le_one_right positive, sub_le_self_iff, mul_nonneg_iff_of_pos_right positive, Int.cast_nonneg_iff]

theorem Sane.gentle_iff (sane : p.Sane) : p.Gentle ↔ 0 ≤ p.count + 1 ∧ ((p.count + 1 : ℤ) : ℚ) * p.probAt p.vAve < 1 := by
  rw [Gentle, probAt, mul_div_assoc', div_lt_one sane.gap]
  push_cast
  rfl

/-- A packet that is let through leaves room for the next one at the same average. -/
theorem Sane.let_through (sane : p.Sane) (inBand : p.InBand) (sound : p.counted.Sound) {u : ℚ} (bounded : u ≤ 1)
    (kept : ¬p.counted.dropsEarly u) : 0 ≤ p.count + 1 ∧ ((p.count + 1 + 1 : ℤ) : ℚ) * p.probAt p.vAve < 1 := by
  obtain ⟨nonneg, below⟩ := (sane.sound_iff_room inBand).mp sound
  have less : p.counted.dropProb < 1 := (not_le.mp fun small => kept (Or.inr small)).trans_le bounded
  have fits := (div_lt_one sound.1).mp less
  refine ⟨nonneg, ?_⟩
  rw [Int.cast_add, Int.cast_one, add_mul, one_mul]
  exact lt_sub_iff_add_lt'.mp fits

end QParam

namespace RedQueue

variable {s : RedQueue} {i prec : ℕ}

theorem modify_early {f : QParam → QParam} (kept : ∀ p, (f p).early = p.early) (i : ℕ) :
    ((s.modify prec f).qParam i).early = (s.qParam i).early := modify_kept QParam.early kept i

theorem age_early (now : ℚ) (s : RedQueue) (prec i : ℕ) : ((s.age now prec).qParam i).early = (s.qParam i).early := by
  unfold age calcAvg
  dsimp only
  split
  · dsimp only
    split_ifs <;> rfl
  · exact modify_early (by intro p; rfl) i

theorem findAvg_early (s : RedQueue) (now : ℚ) (prec i : ℕ) : ((s.findAvg now prec).qParam i).early = (s.qParam i).early := by
  unfold findAvg
  split
  · rfl
  · induction List.range' prec (s.numPrec - prec) using List.reverseRecOn with
    | nil => rfl
    | append_singleton l k ih =>
      rw [List.foldl_append, List.foldl_cons, List.foldl_nil, age_early, ih]
  · exact age_early now s prec i
  · exact age_early now s 0 i

theorem store_early (s : RedQueue) (pkt : DsPacket) (prec i : ℕ) : ((s.store pkt prec).qParam i).early = (s.qParam i).early := by
  rw [store_qParam]
  exact modify_early (by intro p; rfl) i

theorem updateIdleFlag_early (s : RedQueue) (prec i : ℕ) : ((s.updateIdleFlag prec).qParam i).early = (s.qParam i).early := by
  unfold updateIdleFlag
  split
  · dsimp only
    split_ifs <;> rfl
  · exact modify_early (by intro p; rfl) i
  · exact modify_early (by intro p; rfl) i

theorem setIdle_early (now : ℚ) (n first : ℕ) (s : RedQueue) (i : ℕ) : ((setIdle now n first s).qParam i).early = (s.qParam i).early := by
  induction n generalizing first s with
  | zero => rfl
  | succ n ih =>
    rw [setIdle]
    split_ifs
    · rw [ih]
      exact modify_early (by intro p; rfl) i
    · rfl

theorem updateREDStateVar_early (s : RedQueue) (now : ℚ) (prec i : ℕ) :
    ((s.updateREDStateVar now prec).qParam i).early = (s.qParam i).early := by
  unfold updateREDStateVar
  split
  · split
    · split
      · exact setIdle_early ..
      · rfl
    · exact modify_early (by intro p; rfl) i
    · exact modify_early (by intro p; rfl) i
    · rfl
  · rfl

theorem deque_early (s : RedQueue) (now : ℚ) (prec i : ℕ) : ((s.deque now prec).qParam i).early = (s.qParam i).early := by
  rw [deque, updateREDStateVar_early]
  exact modify_early (s := { s with queue := s.queue.tail }) (by intro p; rfl) i

/-- The virtual queue as an arrival finds it, with its average. -/
def arriving (s : RedQueue) (now : ℚ) (prec : ℕ) : QParam := (s.findAvg now prec).qParam prec

/-- The arrival is not turned away before its average is found. -/
def Admits (s : RedQueue) : Prop := (s.queue.length : ℤ) ≤ s.qlim - 1

instance (s : RedQueue) : Decidable s.Admits := inferInstanceAs (Decidable (_ ≤ _))

variable {now u : ℚ} {pkt : DsPacket} {ecn : Bool}

theorem accept_early (s : RedQueue) (i : ℕ) : ((s.accept pkt prec ecn).qParam i).early = (s.qParam i).early := by
  unfold accept
  split_ifs
  · rw [updateIdleFlag_early]
  · rw [updateIdleFlag_early, store_early]

theorem reject_early (s : RedQueue) (verdict : Verdict) (i : ℕ) : ((s.reject prec ecn verdict).1.qParam i).early = (s.qParam i).early := by
  unfold reject
  split_ifs
  · rw [updateIdleFlag_early]
  · rfl

/-- What becomes of the parameters and the counters of one virtual queue with an arrival of a precedence. -/
structure Tallied (u : ℚ) (p : QParam) (prec i : ℕ) (before : QParam) (result : RedQueue × Verdict) : Prop where
  limits : (result.1.qParam i).thMin = before.thMin ∧ (result.1.qParam i).thMax = before.thMax ∧ (result.1.qParam i).maxPInv = before.maxPInv
  others : i ≠ prec → (result.1.qParam i).count = before.count
  through : i = prec → p.InBand → result.2 = .enqueued → ¬p.counted.dropsEarly u ∧ (result.1.qParam i).count = p.count + 1

theorem tallied_modify {f : QParam → QParam} {result : RedQueue × Verdict}
    (same : ∀ i, (result.1.qParam i).early = ((s.modify prec f).qParam i).early)
    (limits : ∀ p, (f p).thMin = p.thMin ∧ (f p).thMax = p.thMax ∧ (f p).maxPInv = p.maxPInv)
    (through : (s.qParam prec).InBand → result.2 = .enqueued →
      ¬(s.qParam prec).counted.dropsEarly u ∧ (f (s.qParam prec)).count = (s.qParam prec).count + 1) (i : ℕ) :
    Tallied u (s.qParam prec) prec i (s.qParam i) result := by
  obtain ⟨thMin, thMax, maxPInv, count⟩ := QParam.early_eq (same i)
  refine ⟨?_, fun other => ?_, fun own inBand passed => ?_⟩
  · rw [thMin, thMax, maxPInv]
    rcases eq_or_ne i prec with rfl | other
    · rw [modify_self]
      exact limits _
    · rw [modify_other other]
      exact ⟨rfl, rfl, rfl⟩
  · rw [count, modify_other other]
  · subst own
    rw [count, modify_self]
    exact through inBand passed

theorem reject_ne_enqueued {verdict : Verdict} (refused : verdict ≠ .enqueued) : (s.reject prec ecn verdict).2 ≠ .enqueued := by
  unfold reject
  split_ifs
  · exact Verdict.noConfusion
  · exact refused

theorem judge_tallied (s : RedQueue) (u : ℚ) (pkt : DsPacket) (prec : ℕ) (ecn : Bool) (i : ℕ) :
    Tallied u (s.qParam prec) prec i (s.qParam i) (s.judge u pkt prec ecn) := by
  unfold judge
  dsimp only
  split_ifs with above below drops
  · exact tallied_modify (reject_early _ _) (by intro p; exact ⟨rfl, rfl, rfl⟩) (fun _ passed => absurd passed (reject_ne_enqueued (by decide))) i
  · exact tallied_modify (accept_early _) (by intro p; exact ⟨rfl, rfl, rfl⟩) (fun _ _ => ⟨drops, rfl⟩) i
  · exact tallied_modify (reject_early _ _) (by intro p; exact ⟨rfl, rfl, rfl⟩) (fun inBand _ => absurd inBand.2 below) i
  · exact tallied_modify (accept_early _) (by intro p; exact ⟨rfl, rfl, rfl⟩) (fun inBand _ => absurd inBand.1 above) i

/-- The same for an arrival with the average that it finds. -/
theorem enque_tallied (admits : s.Admits) (mode : s.mredMode ≠ .dropTail) (now u : ℚ) (pkt : DsPacket) (prec : ℕ) (ecn : Bool) (i : ℕ) :
    Tallied u (s.arriving now prec) prec i (s.qParam i) (s.enque now u pkt prec ecn) := by
  have enters : s.enque now u pkt prec ecn = (if ecn then (s.findAvg now prec).store pkt prec else s.findAvg now prec).judge u pkt prec ecn := by
    rw [enque, if_neg (not_lt.mpr admits), if_neg fun both => mode both.1]
  rw [enters]
  obtain ⟨thMin, thMax, maxPInv, count⟩ := QParam.early_eq (findAvg_early s now prec i)
  cases ecn with
  | false =>
    obtain ⟨limits, others, through⟩ := judge_tallied (s.findAvg now prec) u pkt prec false i
    rw [thMin, thMax, maxPInv] at limits
    rw [count] at others
    exact ⟨limits, others, through⟩
  | true =>
    obtain ⟨limits, others, through⟩ := judge_tallied ((s.findAvg now prec).store pkt prec) u pkt prec true i
    obtain ⟨thMin', thMax', maxPInv', count'⟩ := QParam.early_eq (store_early (s.findAvg now prec) pkt prec i)
    rw [thMin', thMax', maxPInv', thMin, thMax, maxPInv] at limits
    rw [count', count] at others
    have stored : ((s.findAvg now prec).store pkt prec).qParam prec =
        { s.arriving now prec with qlen := (s.arriving now prec).qlen + 1 } := by
      rw [store_qParam, modify_self]
      rfl
    rw [stored] at through
    exact ⟨limits, others, through⟩

end RedQueue

namespace Watched

/-- What is remembered of an arrival. -/
def remember (w : Watched) (now : ℚ) (prec : ℕ) (verdict : Verdict) : ℕ → Option ℚ :=
  if w.red.Admits then
    Function.update w.last prec
      (if (w.red.arriving now prec).InBand ∧ verdict = .enqueued then some (w.red.arriving now prec).vAve else none)
  else w.last

def component : Machine Watched RedCall (Option Verdict) where
  step w
    | .enque now u pkt prec ecn =>
      let result := w.red.enque now u pkt prec ecn
      some (⟨result.1, w.remember now prec result.2⟩, some result.2)
    | .deque now prec => some (⟨w.red.deque now prec, w.last⟩, none)

/-- An arrival that finds its average in the band uses a sound drop probability. -/
def Sound (w : Watched) : RedCall → Prop
  | .enque now _ _ prec _ => w.red.Admits → (w.red.arriving now prec).InBand → (w.red.arriving now prec).counted.Sound
  | .deque _ _ => True

/-- An arrival that finds its average in the band, and not at or below the one that let the last packet through, does not find it too high. -/
def Gentle (w : Watched) : RedCall → Prop
  | .enque now _ _ prec _ => w.red.Admits → (w.red.arriving now prec).InBand → (∀ a ∈ w.last prec, a < (w.red.arriving now prec).vAve) →
      (w.red.arriving now prec).Gentle
  | .deque _ _ => True

instance (w : Watched) : ∀ call, Decidable (w.Sound call)
  | .enque _ _ _ _ _ => inferInstanceAs (Decidable (_ → _ → _))
  | .deque _ _ => isTrue trivial

instance (w : Watched) : ∀ call, Decidable (w.Gentle call)
  | .enque _ _ _ _ _ => inferInstanceAs (Decidable (_ → _ → (∀ a ∈ _, _) → _))
  | .deque _ _ => isTrue trivial

/-- The precedence is configured, and the random number is not above one. -/
def Proper (numPrec : ℕ) : RedCall → Prop
  | .enque _ u _ prec _ => prec < numPrec ∧ u ≤ 1
  | .deque _ _ => True

/-- After a packet that was let through the next one is safe at the same average. -/
structure Safe (numPrec : ℕ) (w : Watched) : Prop where
  mode : w.red.mredMode ≠ .dropTail
  sane : ∀ i < numPrec, (w.red.qParam i).Sane
  room : ∀ i < numPrec, ∀ a ∈ w.last i, 0 ≤ (w.red.qParam i).count ∧
    (((w.red.qParam i).count + 1 : ℤ) : ℚ) * (w.red.qParam i).probAt a < 1

variable {w : Watched} {numPrec prec : ℕ} {now u : ℚ} {pkt : DsPacket} {ecn : Bool} {call : RedCall} {p q : QParam}

theorem sane_congr (thMin : q.thMin = p.thMin) (thMax : q.thMax = p.thMax) (maxPInv : q.maxPInv = p.maxPInv) (sane : p.Sane) : q.Sane :=
  ⟨by rw [thMin, thMax]; exact sane.band, by rw [maxPInv]; exact sane.positive, by rw [maxPInv]; exact sane.small⟩

theorem probAt_congr (thMin : q.thMin = p.thMin) (thMax : q.thMax = p.thMax) (maxPInv : q.maxPInv = p.maxPInv) (a : ℚ) :
    q.probAt a = p.probAt a := by
  rw [QParam.probAt, QParam.probAt, thMin, thMax, maxPInv]

theorem Safe.arriving (safe : w.Safe numPrec) (low : prec < numPrec) (now : ℚ) : (w.red.arriving now prec).Sane := by
  obtain ⟨thMin, thMax, maxPInv, _⟩ := QParam.early_eq (w.red.findAvg_early now prec prec)
  exact sane_congr thMin thMax maxPInv (safe.sane prec low)

/-- In a safe state only an average that has risen can be too high. -/
theorem Safe.sound_iff_call (safe : w.Safe numPrec) (proper : Proper numPrec call) : w.Sound call ↔ w.Gentle call := by
  cases call with
  | deque now prec => exact Iff.rfl
  | enque now u pkt prec ecn =>
    refine forall_congr' fun admits => forall_congr' fun inBand => ?_
    have sane := safe.arriving proper.1 now
    rw [sane.sound_iff_room inBand, ← sane.gentle_iff]
    refine ⟨fun gentle _ => gentle, fun gentle => ?_⟩
    by_cases rises : ∀ a ∈ w.last prec, a < (w.red.arriving now prec).vAve
    · exact gentle rises
    · push Not at rises
      obtain ⟨a, known, level⟩ := rises
      obtain ⟨nonneg, below⟩ := safe.room prec proper.1 a known
      obtain ⟨thMin, thMax, maxPInv, count⟩ := QParam.early_eq (w.red.findAvg_early now prec prec)
      rw [sane.gentle_iff, show (w.red.arriving now prec).count = (w.red.qParam prec).count from count]
      have counted : (0 : ℚ) ≤ ((w.red.qParam prec).count + 1 : ℤ) := Int.cast_nonneg_iff.mpr (by omega)
      refine ⟨by omega, (mul_le_mul_of_nonneg_left (sane.prob_mono level) counted).trans_lt ?_⟩
      rwa [show (w.red.arriving now prec).probAt a = _ from probAt_congr thMin thMax maxPInv a]

theorem Safe.enque (safe : w.Safe numPrec) (admits : w.red.Admits) (sound : w.Sound (.enque now u pkt prec ecn)) (low : prec < numPrec)
    (bounded : u ≤ 1) :
    Safe numPrec ⟨(w.red.enque now u pkt prec ecn).1, w.remember now prec (w.red.enque now u pkt prec ecn).2⟩ := by
  have tallied := RedQueue.enque_tallied admits safe.mode now u pkt prec ecn
  have outcome := w.red.enque_outcome now u pkt prec ecn
  generalize w.red.enque now u pkt prec ecn = result at tallied outcome ⊢
  refine ⟨?_, fun i low' => ?_, fun i low' a known => ?_⟩
  · cases outcome with
    | stored _ _ stored => exact stored.mredMode ▸ safe.mode
    | lost _ alike => exact alike.mredMode ▸ safe.mode
  · obtain ⟨thMin, thMax, maxPInv⟩ := (tallied i).limits
    exact sane_congr thMin thMax maxPInv (safe.sane i low')
  · obtain ⟨thMin, thMax, maxPInv⟩ := (tallied i).limits
    dsimp only at known ⊢
    rw [remember, if_pos admits] at known
    rw [probAt_congr thMin thMax maxPInv]
    rcases eq_or_ne i prec with rfl | other
    · rw [Function.update_self] at known
      split_ifs at known with passed
      · cases known
        obtain ⟨kept, count⟩ := (tallied i).through rfl passed.1 passed.2
        obtain ⟨nonneg, below⟩ := (safe.arriving low now).let_through passed.1 (sound admits passed.1) bounded kept
        obtain ⟨thMin', thMax', maxPInv', _⟩ := QParam.early_eq (w.red.findAvg_early now i i)
        rw [show (w.red.arriving now i).probAt _ = _ from probAt_congr thMin' thMax' maxPInv' _] at below
        rw [count]
        exact ⟨nonneg, below⟩
      · cases known
    · rw [Function.update_of_ne other] at known
      rw [(tallied i).others other]
      exact safe.room i low' a known

theorem Safe.deque (safe : w.Safe numPrec) (now : ℚ) (prec : ℕ) : Safe numPrec ⟨w.red.deque now prec, w.last⟩ := by
  refine ⟨(RedQueue.left_deque w.red now prec).mredMode ▸ safe.mode, fun i low => ?_, fun i low a known => ?_⟩
  · obtain ⟨thMin, thMax, maxPInv, _⟩ := QParam.early_eq (w.red.deque_early now prec i)
    exact sane_congr thMin thMax maxPInv (safe.sane i low)
  · obtain ⟨thMin, thMax, maxPInv, count⟩ := QParam.early_eq (w.red.deque_early now prec i)
    dsimp only
    rw [count, probAt_congr thMin thMax maxPInv]
    exact safe.room i low a known

theorem Safe.step {next : Watched} {answer : Option Verdict} (safe : w.Safe numPrec) (sound : w.Sound call) (proper : Proper numPrec call)
    (taken : component.step w call = some (next, answer)) : next.Safe numPrec := by
  cases call with
  | enque now u pkt prec ecn =>
    cases taken
    by_cases admits : w.red.Admits
    · exact safe.enque admits sound proper.1 proper.2
    · have refused : w.red.enque now u pkt prec ecn = (w.red, .dropped) := if_pos (not_le.mp admits)
      rw [refused, remember, if_neg admits]
      exact safe
  | deque now prec =>
    cases taken
    exact safe.deque now prec

/-- A physical queue that nothing has come to yet. -/
def start (red : RedQueue) : Watched := ⟨red, fun _ => none⟩

/-- RIO-C with the average equal to the length: packets of precedence 0 are all let through, those of precedence 1 dropped between 0 and 8. -/
def sampleRed : RedQueue :=
  let memory : RedQueue := ⟨2, 50, .rioC, [], fun _ => ⟨0, 0, 0, 0, 1, 0, 0, 0, 0, 0, false⟩⟩
  (memory.config 0 100 200 (1 / 10) (some 1) 0).config 1 0 8 1 (some 1) 0

def sampleCall (u : ℚ) (prec : ℕ) : RedCall := .enque 0 u ⟨10, 1000, false⟩ prec false

theorem sane_sampleRed : ∀ i < sampleRed.numPrec, (sampleRed.qParam i).Sane := by
  intro i inUse
  have low : i < 2 := inUse
  obtain rfl | rfl : i = 0 ∨ i = 1 := by omega
  · exact ⟨by decide +kernel, by decide +kernel, by decide +kernel⟩
  · exact ⟨by decide +kernel, by decide +kernel, by decide +kernel⟩

end Watched

end Ns2
