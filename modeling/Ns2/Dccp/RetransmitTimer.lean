import Mathlib.Algebra.BigOperators.Group.List.Basic
import Mathlib.Tactic.Linarith
import Mathlib.Tactic.Ring
import Ns2.Dccp.Agent

namespace Ns2

namespace DCCPRetransmitTimer

variable {params : DCCPParams} {timer : DCCPRetransmitTimer}

/-- The timer after `n` calls of `backOff` of which none was shortened. -/
structure Doubled (params : DCCPParams) (timer : DCCPRetransmitTimer) (n : ℕ) : Prop where
  going : timer.backoffFailed = false
  total : timer.totDelay = (2 ^ n - 1) * params.initialRtxTo
  delay : timer.delay = 2 ^ (n - 1) * params.initialRtxTo
  within : timer.totDelay ≤ params.maxRtxTo

/-- What `init` and any calls of `backOff` after it leave. -/
structure Backed (params : DCCPParams) (timer : DCCPRetransmitTimer) : Prop where
  limit : timer.maxTotDelay = params.maxRtxTo
  summed : timer.scheduled.sum = timer.totDelay
  nonneg : 0 ≤ timer.delay
  progress : (∃ n, Doubled params timer n) ∨ timer.backoffFailed = true ∧ timer.totDelay = params.maxRtxTo

theorem Backed.bound (backed : Backed params timer) : timer.scheduled.sum ≤ params.maxRtxTo := by
  rw [backed.summed]
  obtain ⟨n, doubled⟩ | ⟨_, full⟩ := backed.progress
  · exact doubled.within
  · exact full.le

theorem backed_init (positive : 0 < params.initialRtxTo) (small : params.initialRtxTo ≤ params.maxRtxTo) :
    Backed params (timer.init params.initialRtxTo params.maxRtxTo) where
  limit := rfl
  summed := rfl
  nonneg := positive.le
  progress := .inl ⟨0, rfl, by simp [init], by simp [init], positive.le.trans small⟩

/-- `backOff` once it has chosen the delay. -/
def push (timer : DCCPRetransmitTimer) : DCCPRetransmitTimer :=
  let timer := { timer with totDelay := timer.totDelay + timer.delay }
  if 0 < timer.delay then timer.resched else timer

@[simp] theorem push_failed : timer.push.backoffFailed = timer.backoffFailed := by
  unfold push
  dsimp only
  split <;> rfl

@[simp] theorem push_totDelay : timer.push.totDelay = timer.totDelay + timer.delay := by
  unfold push
  dsimp only
  split <;> rfl

@[simp] theorem push_delay : timer.push.delay = timer.delay := by
  unfold push
  dsimp only
  split <;> rfl

@[simp] theorem push_limit : timer.push.maxTotDelay = timer.maxTotDelay := by
  unfold push
  dsimp only
  split <;> rfl

theorem push_sum (nonneg : 0 ≤ timer.delay) : timer.push.scheduled.sum = timer.scheduled.sum + timer.delay := by
  unfold push
  dsimp only
  split
  · rw [resched, List.sum_cons, add_comm]
  · rename_i none
    have zero : timer.delay = 0 := le_antisymm (not_lt.mp none) nonneg
    exact (add_zero _).symm.trans (congrArg (timer.scheduled.sum + ·) zero.symm)

theorem push_pending (positive : 0 < timer.delay) : timer.push.status = .pending := by
  unfold push
  dsimp only
  rw [if_pos positive]
  rfl

theorem push_kept (pending : timer.status = .pending) : timer.push.status = .pending := by
  unfold push
  dsimp only
  split
  · rfl
  · exact pending

theorem push_idle (zero : timer.delay = 0) : timer.push.status = timer.status := by
  unfold push
  dsimp only
  rw [if_neg (by rw [zero]; exact lt_irrefl 0)]

theorem backOff_first (none : timer.totDelay = 0) : timer.backOff = timer.push := by
  simp only [backOff, push, if_pos none]

theorem backOff_double (some : timer.totDelay ≠ 0) (room : timer.totDelay + timer.delay * 2 ≤ timer.maxTotDelay) :
    timer.backOff = push { timer with delay := timer.delay * 2 } := by
  simp only [backOff, push, if_neg some, if_pos room]

theorem backOff_last (some : timer.totDelay ≠ 0) (full : ¬timer.totDelay + timer.delay * 2 ≤ timer.maxTotDelay) :
    timer.backOff = push { timer with delay := timer.maxTotDelay - timer.totDelay, backoffFailed := true } := by
  simp only [backOff, push, if_neg some, if_neg full]

variable {n : ℕ}

theorem Doubled.total_ne_zero (positive : 0 < params.initialRtxTo) (doubled : Doubled params timer (n + 1)) : timer.totDelay ≠ 0 := by
  have grown : (1 : ℚ) < 2 ^ (n + 1) := one_lt_pow₀ one_lt_two n.succ_ne_zero
  rw [doubled.total]
  exact (mul_pos (by linarith) positive).ne'

theorem Doubled.next_total (doubled : Doubled params timer (n + 1)) :
    timer.totDelay + timer.delay * 2 = (2 ^ (n + 2) - 1) * params.initialRtxTo := by
  rw [doubled.total, doubled.delay, Nat.add_sub_cancel]
  ring

theorem Doubled.next_delay (doubled : Doubled params timer (n + 1)) : timer.delay * 2 = 2 ^ (n + 1) * params.initialRtxTo := by
  rw [doubled.delay, Nat.add_sub_cancel]
  ring

/-- The first call schedules the initial delay. -/
theorem Doubled.backOff_zero (doubled : Doubled params timer 0) (small : params.initialRtxTo ≤ params.maxRtxTo) :
    Doubled params timer.backOff 1 := by
  have none : timer.totDelay = 0 := by simp [doubled.total]
  have initial : timer.delay = params.initialRtxTo := by simp [doubled.delay]
  rw [backOff_first none]
  refine ⟨push_failed.trans doubled.going, ?_, ?_, ?_⟩
  · rw [push_totDelay, none, initial]
    ring
  · rw [push_delay, initial]
    ring
  · rw [push_totDelay, none, initial, zero_add]
    exact small

theorem Doubled.backOff_succ (positive : 0 < params.initialRtxTo) (limit : timer.maxTotDelay = params.maxRtxTo)
    (doubled : Doubled params timer (n + 1)) (room : (2 ^ (n + 2) - 1) * params.initialRtxTo ≤ params.maxRtxTo) :
    Doubled params timer.backOff (n + 2) := by
  have next := doubled.next_total
  rw [backOff_double (doubled.total_ne_zero positive) (by rwa [next, limit])]
  refine ⟨push_failed.trans doubled.going, push_totDelay.trans next, push_delay.trans doubled.next_delay, ?_⟩
  rw [push_totDelay, next]
  exact room

/-- Whichever delay the call chooses, it is counted and scheduled. -/
theorem backed_push (limit : timer.maxTotDelay = params.maxRtxTo) (summed : timer.scheduled.sum = timer.totDelay)
    (nonneg : 0 ≤ timer.delay)
    (progress : (∃ n, Doubled params timer.push n) ∨ timer.backoffFailed = true ∧ timer.totDelay + timer.delay = params.maxRtxTo) :
    Backed params timer.push where
  limit := push_limit.trans limit
  summed := by rw [push_sum nonneg, push_totDelay, summed]
  nonneg := push_delay.symm ▸ nonneg
  progress := progress.imp_right fun full => ⟨push_failed.trans full.1, push_totDelay.trans full.2⟩

theorem backed_backOff (positive : 0 < params.initialRtxTo) (small : params.initialRtxTo ≤ params.maxRtxTo)
    (backed : Backed params timer) : Backed params timer.backOff := by
  have within : timer.totDelay ≤ timer.maxTotDelay := by
    rw [← backed.summed, backed.limit]
    exact backed.bound
  by_cases none : timer.totDelay = 0
  · obtain ⟨n, doubled⟩ | ⟨_, full⟩ := backed.progress
    · cases n with
      | zero =>
        have next := doubled.backOff_zero small
        rw [backOff_first none] at next ⊢
        exact backed_push backed.limit backed.summed backed.nonneg (.inl ⟨1, next⟩)
      | succ n => exact absurd none (doubled.total_ne_zero positive)
    · exact absurd (none.symm.trans full) (positive.trans_le small).ne
  by_cases room : timer.totDelay + timer.delay * 2 ≤ timer.maxTotDelay
  · have doubled : 0 ≤ timer.delay * 2 := mul_nonneg backed.nonneg zero_le_two
    obtain ⟨n, plain⟩ | ⟨failed, full⟩ := backed.progress
    · cases n with
      | zero => exact absurd (by simp [plain.total]) none
      | succ n =>
        have fits := room
        rw [plain.next_total, backed.limit] at fits
        have next := plain.backOff_succ positive backed.limit fits
        rw [backOff_double none room] at next ⊢
        exact backed_push backed.limit backed.summed doubled (.inl ⟨n + 2, next⟩)
    · -- a delay of zero is doubled to zero
      have stopped : timer.totDelay + timer.delay * 2 = params.maxRtxTo := by linarith [backed.limit]
      rw [backOff_double none room]
      exact backed_push backed.limit backed.summed doubled (.inr ⟨failed, stopped⟩)
  · have whole : timer.totDelay + (timer.maxTotDelay - timer.totDelay) = params.maxRtxTo := by linarith [backed.limit]
    rw [backOff_last none room]
    exact backed_push backed.limit backed.summed (sub_nonneg.mpr within) (.inr ⟨rfl, whole⟩)

/-- A doubled delay comes out at the limit exactly for these parameters. -/
def Exhausts (params : DCCPParams) : Prop := ∃ k : ℕ, params.maxRtxTo = (2 ^ k - 1) * params.initialRtxTo

theorem pending_backOff (positive : 0 < params.initialRtxTo) (inexact : ¬Exhausts params) (backed : Backed params timer)
    (going : timer.backoffFailed = false) : timer.backOff.status = .pending := by
  obtain ⟨n, doubled⟩ | ⟨failed, _⟩ := backed.progress
  · cases n with
    | zero =>
      have none : timer.totDelay = 0 := by simp [doubled.total]
      have initial : timer.delay = params.initialRtxTo := by simp [doubled.delay]
      rw [backOff_first none]
      exact push_pending (initial ▸ positive)
    | succ n =>
      have some := doubled.total_ne_zero positive
      by_cases room : timer.totDelay + timer.delay * 2 ≤ timer.maxTotDelay
      · have longer : 0 < timer.delay * 2 := by
          rw [doubled.next_delay]
          positivity
        rw [backOff_double some room]
        exact push_pending longer
      · have short : timer.totDelay ≠ timer.maxTotDelay := by
          intro full
          exact inexact ⟨n + 1, by rw [← backed.limit, ← full, doubled.total]⟩
        have left : 0 < timer.maxTotDelay - timer.totDelay :=
          sub_pos.mpr (lt_of_le_of_ne (backed.limit ▸ doubled.within) short)
        rw [backOff_last some room]
        exact push_pending left
  · exact absurd failed (going ▸ Bool.false_ne_true)

theorem kept_backOff (pending : timer.status = .pending) : timer.backOff.status = .pending := by
  by_cases none : timer.totDelay = 0
  · rw [backOff_first none]
    exact push_kept pending
  by_cases room : timer.totDelay + timer.delay * 2 ≤ timer.maxTotDelay
  · rw [backOff_double none room]
    exact push_kept pending
  · rw [backOff_last none room]
    exact push_kept pending

/-- Where the doubled delays have used up the limit, nothing is scheduled. -/
theorem Doubled.stopped (positive : 0 < params.initialRtxTo) (limit : timer.maxTotDelay = params.maxRtxTo)
    (doubled : Doubled params timer (n + 1)) (full : params.maxRtxTo = (2 ^ (n + 1) - 1) * params.initialRtxTo) :
    timer.backOff.status = timer.status := by
  have same : timer.totDelay = timer.maxTotDelay := by rw [doubled.total, limit, full]
  have longer : 0 < timer.delay * 2 := by
    rw [doubled.next_delay]
    positivity
  rw [backOff_last (doubled.total_ne_zero positive) (by linarith)]
  exact push_idle (sub_eq_zero.mpr same.symm)

end DCCPRetransmitTimer

end Ns2
