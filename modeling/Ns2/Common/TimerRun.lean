import Ns2.Common.TimerHandler

universe u

namespace Ns2

namespace TimerReport

variable {τ : Type u}

/-- The armings of a log, those that ended in an `expire`, and those that were
cancelled or replaced. -/
def armings (log : List (TimerReport τ)) : List (Arming τ) := log.filterMap fun | armed a => some a | _ => none

def expirings (log : List (TimerReport τ)) : List (Arming τ) := log.filterMap fun | expired a => some a | _ => none

def drops (log : List (TimerReport τ)) : List (Arming τ) := log.filterMap fun | dropped a => some a | _ => none

@[simp] theorem armings_append (l m : List (TimerReport τ)) : armings (l ++ m) = armings l ++ armings m := List.filterMap_append

@[simp] theorem expirings_append (l m : List (TimerReport τ)) : expirings (l ++ m) = expirings l ++ expirings m := List.filterMap_append

@[simp] theorem drops_append (l m : List (TimerReport τ)) : drops (l ++ m) = drops l ++ drops m := List.filterMap_append

end TimerReport

open TimerReport

/-- The event of an arming: smallest time first, equal times in the order of arming. -/
def Arming.event {τ : Type u} (a : Arming τ) : Event := ⟨a.time, a.uid⟩

namespace TimerScheduler

variable {τ : Type u} [DecidableEq τ] {s next : TimerScheduler τ} {t p : τ} {delay : ℚ} {log : List (TimerReport τ)} {queue : List τ}
  {event : τ → Event}

/-- The scheduler's queue with its events in it. -/
def list (s : TimerScheduler τ) : ListScheduler := ⟨s.queue.map s.event⟩

theorem link_map : (link event t queue).map event = ListScheduler.link (event t) (queue.map event) := by
  induction queue with
  | nil => rfl
  | cons p rest ih =>
    rw [link, List.map_cons, ListScheduler.link, ← ih]
    split <;> rfl

theorem link_perm : (link event t queue).Perm (t :: queue) := by
  induction queue with
  | nil => rfl
  | cons p rest ih =>
    unfold link
    split
    · rfl
    · exact (ih.cons p).trans (List.Perm.swap t p rest)

theorem unlink_eq_erase (member : t ∈ queue) : unlink t queue = some (queue.erase t) := by
  induction queue with
  | nil => exact absurd member List.not_mem_nil
  | cons p rest ih =>
    unfold unlink
    split
    · rename_i same
      rw [same, List.erase_cons_head]
    · rename_i other
      have later : t ∈ rest := (List.mem_cons.mp member).resolve_left (Ne.symm other)
      rw [ih later, List.erase_cons_tail (by simpa using other)]
      rfl

/-- The fate of the armings of a run: each one expired at its time, was dropped
or is still queued, and they expire in the order of their times and numbers. -/
structure Accounts (s : TimerScheduler τ) (log : List (TimerReport τ)) : Prop where
  shares : (armings log).Perm (expirings log ++ drops log ++ s.queue.map s.arming)
  numbered : (armings log).Pairwise fun a b => a.uid < b.uid
  ordered : (expirings log).Pairwise fun a b => a.event < b.event

/-- What holds of the queue, the events and the log whenever no event is on its
way from the queue to its handler. -/
structure Kept (s : TimerScheduler τ) (log : List (TimerReport τ)) : Prop extends Accounts s log where
  nodup : s.queue.Nodup
  positive : ∀ t, t ∈ s.queue ↔ 0 < (s.event t).uid
  sorted : s.list.Ordered
  future : ∀ t ∈ s.queue, s.clock ≤ (s.event t).time
  fresh : 0 < s.uid ∧ ∀ a ∈ armings log, a.uid < s.uid
  past : ∀ a ∈ expirings log, a.time ≤ s.clock ∧ ∀ t ∈ s.queue, a.event < s.event t

theorem start_kept : Kept (start : TimerScheduler τ) [] where
  shares := .nil
  numbered := .nil
  ordered := .nil
  nodup := .nil
  positive t := ⟨fun member => absurd member List.not_mem_nil, fun positive => absurd positive (lt_irrefl 0)⟩
  sorted := ListScheduler.empty_ordered
  future t member := absurd member List.not_mem_nil
  fresh := ⟨Int.one_pos, fun a member => absurd member List.not_mem_nil⟩
  past a member := absurd member List.not_mem_nil

theorem Kept.setStatus (kept : Kept s log) (t : τ) (status : TimerStatus) : Kept (s.setStatus t status) log :=
  ⟨⟨kept.shares, kept.numbered, kept.ordered⟩, kept.nodup, kept.positive, kept.sorted, kept.future, kept.fresh, kept.past⟩

/-- The number of a queued event is one of an arming. -/
theorem Kept.uid_lt (kept : Kept s log) (member : p ∈ s.queue) : (s.event p).uid < s.uid := by
  have armed : s.arming p ∈ armings log := kept.shares.mem_iff.mpr (List.mem_append_right _ (List.mem_map_of_mem member))
  exact kept.fresh.2 _ armed

theorem expiring_uid_lt (kept : Kept s log) {a : Arming τ} (member : a ∈ expirings log) : a.uid < s.uid := by
  have armed : a ∈ armings log := kept.shares.mem_iff.mpr (List.mem_append_left _ (List.mem_append_left _ member))
  exact kept.fresh.2 a armed

/-- All that the two calls into the scheduler leave alone. -/
structure Alike (s next : TimerScheduler τ) : Prop where
  clock : next.clock = s.clock
  status : next.status = s.status
  running : next.running = s.running

/-- `schedule` arms a timer that is not queued. -/
theorem Kept.schedule (kept : Kept s log) (absent : t ∉ s.queue) (nonneg : 0 ≤ delay) :
    ∃ next, s.schedule t delay = some next ∧ Kept next (log ++ [.armed (next.arming t)]) ∧ Alike s next ∧
      ∀ p, p ∈ next.queue ↔ p = t ∨ p ∈ s.queue := by
  have idle : ¬0 < (s.event t).uid := fun positive => absent ((kept.positive t).mpr positive)
  have uid := kept.fresh.1
  generalize defined : Function.update s.event t ⟨s.clock + delay, s.uid⟩ = event
  have mine : event t = ⟨s.clock + delay, s.uid⟩ := by rw [← defined, Function.update_self]
  have others : ∀ p, p ≠ t → event p = s.event p := fun p other => by rw [← defined, Function.update_of_ne other]
  have old : ∀ p ∈ s.queue, event p = s.event p := by
    intro p member
    refine others p ?_
    rintro rfl
    exact absent member
  have mem : ∀ p, p ∈ link event t s.queue ↔ p = t ∨ p ∈ s.queue := fun p => by rw [link_perm.mem_iff, List.mem_cons]
  have events : s.queue.map event = s.queue.map s.event := List.map_congr_left old
  refine ⟨{ s with uid := s.uid + 1, event := event, queue := link event t s.queue }, ?_, ?_, ⟨rfl, rfl, rfl⟩, mem⟩
  · rw [TimerScheduler.schedule, if_neg idle, if_neg (by omega)]
    dsimp only
    rw [defined]
  generalize made : (⟨s.uid, t, s.clock + delay⟩ : Arming τ) = a
  have report : (⟨(event t).uid, t, (event t).time⟩ : Arming τ) = a := by rw [mine, made]
  show Kept _ (log ++ [.armed ⟨(event t).uid, t, (event t).time⟩])
  rw [report]
  have armed : armings (log ++ [.armed a]) = armings log ++ [a] := by
    rw [armings_append]
    rfl
  have expired : expirings (log ++ [.armed a]) = expirings log := by
    rw [expirings_append]
    exact List.append_nil _
  have dropped : drops (log ++ [.armed a]) = drops log := by
    rw [drops_append]
    exact List.append_nil _
  refine ⟨⟨?_, ?_, ?_⟩, ?_, ?_, ?_, ?_, ?_, ?_⟩
  · have queued : ((link event t s.queue).map fun p => (⟨(event p).uid, p, (event p).time⟩ : Arming τ)).Perm (a :: s.queue.map s.arming) := by
      refine (link_perm.map _).trans ?_
      rw [List.map_cons, report]
      refine List.Perm.cons _ (List.Perm.of_eq (List.map_congr_left fun p member => ?_))
      rw [old p member]
      rfl
    rw [armed, expired, dropped]
    refine (kept.shares.append_right [a]).trans ?_
    rw [List.append_assoc]
    exact List.Perm.append_left _ ((List.perm_append_singleton a _).trans queued.symm)
  · rw [armed, List.pairwise_append]
    refine ⟨kept.numbered, List.pairwise_singleton _ _, ?_⟩
    intro b member c last
    rw [List.mem_singleton.mp last, ← made]
    exact kept.fresh.2 b member
  · rw [expired]
    exact kept.ordered
  · exact (link_perm.nodup_iff).mpr (List.nodup_cons.mpr ⟨absent, kept.nodup⟩)
  · intro p
    show p ∈ link event t s.queue ↔ 0 < (event p).uid
    rw [mem]
    by_cases same : p = t
    · subst same
      rw [mine]
      exact ⟨fun _ => uid, fun _ => Or.inl rfl⟩
    · rw [others p same, ← kept.positive p]
      exact or_iff_right same
  · have inserted : (ListScheduler.mk ((link event t s.queue).map event)) = s.list.insert ⟨s.clock + delay, s.uid⟩ := by
      rw [link_map, mine, events]
      rfl
    show (ListScheduler.mk ((link event t s.queue).map event)).Ordered
    rw [inserted]
    refine kept.sorted.insert ⟨uid, ?_⟩
    intro x member
    obtain ⟨p, queued, rfl⟩ := List.mem_map.mp member
    exact kept.uid_lt queued
  · intro p member
    show s.clock ≤ (event p).time
    rcases (mem p).mp member with rfl | queued
    · rw [mine]
      exact le_add_of_nonneg_right nonneg
    · rw [old p queued]
      exact kept.future p queued
  · refine ⟨Int.lt_add_one_of_le uid.le, ?_⟩
    intro b member
    show b.uid < s.uid + 1
    rw [armed] at member
    rcases List.mem_append.mp member with earlier | last
    · exact (kept.fresh.2 b earlier).trans (lt_add_one _)
    · rw [List.mem_singleton.mp last, ← made]
      exact lt_add_one _
  · intro b member
    rw [expired] at member
    obtain ⟨past, before⟩ := kept.past b member
    refine ⟨past, ?_⟩
    intro p queued
    show b.event < event p
    rcases (mem p).mp queued with rfl | queued
    · have less := expiring_uid_lt kept member
      rw [mine, Event.lt_iff]
      rcases (past.trans (le_add_of_nonneg_right nonneg) : b.time ≤ s.clock + delay).lt_or_eq with earlier | same
      · exact Or.inl earlier
      · exact Or.inr ⟨same, less⟩
    · rw [old p queued]
      exact before p queued

/-- `_cancel` takes a queued timer, and nothing else, off the queue. -/
theorem Kept.cancelEvent (kept : Kept s log) (member : t ∈ s.queue) :
    ∃ next, s.cancelEvent t = some next ∧ Kept next (log ++ [.dropped (s.arming t)]) ∧ Alike s next ∧
      ∀ p, p ∈ next.queue ↔ p ≠ t ∧ p ∈ s.queue := by
  have positive := (kept.positive t).mp member
  have mem : ∀ p, p ∈ s.queue.erase t ↔ p ≠ t ∧ p ∈ s.queue := fun p => kept.nodup.mem_erase_iff
  generalize defined : Function.update s.event t { s.event t with uid := -(s.event t).uid } = event
  have mine : event t = { s.event t with uid := -(s.event t).uid } := by rw [← defined, Function.update_self]
  have others : ∀ p, p ≠ t → event p = s.event p := fun p other => by rw [← defined, Function.update_of_ne other]
  have left : ∀ p ∈ s.queue.erase t, event p = s.event p := fun p queued => others p ((mem p).mp queued).1
  refine ⟨{ s with queue := s.queue.erase t, event := event }, ?_, ?_, ⟨rfl, rfl, rfl⟩, mem⟩
  · rw [TimerScheduler.cancelEvent, if_neg (by omega), unlink_eq_erase member, Option.map_some, defined]
  have armed : armings (log ++ [.dropped (s.arming t)]) = armings log := by
    rw [armings_append]
    exact List.append_nil _
  have expired : expirings (log ++ [.dropped (s.arming t)]) = expirings log := by
    rw [expirings_append]
    exact List.append_nil _
  have dropped : drops (log ++ [.dropped (s.arming t)]) = drops log ++ [s.arming t] := by
    rw [drops_append]
    rfl
  refine ⟨⟨?_, ?_, ?_⟩, kept.nodup.erase t, ?_, ?_, ?_, ?_, ?_⟩
  · have queued : (s.queue.map s.arming).Perm
        ([s.arming t] ++ (s.queue.erase t).map fun p => (⟨(event p).uid, p, (event p).time⟩ : Arming τ)) := by
      refine ((List.perm_cons_erase member).map _).trans (List.Perm.cons _ (List.Perm.of_eq (List.map_congr_left fun p queued => ?_)))
      rw [left p queued]
      rfl
    rw [armed, expired, dropped, ← List.append_assoc, List.append_assoc _ [s.arming t]]
    exact kept.shares.trans (List.Perm.append_left _ queued)
  · rw [armed]
    exact kept.numbered
  · rw [expired]
    exact kept.ordered
  · intro p
    show p ∈ s.queue.erase t ↔ 0 < (event p).uid
    rw [mem]
    by_cases same : p = t
    · subst same
      rw [mine]
      dsimp only
      constructor
      · exact fun queued => absurd rfl queued.1
      · omega
    · rw [others p same, ← kept.positive p]
      exact and_iff_right same
  · have same : (s.queue.erase t).map event = (s.queue.erase t).map s.event := List.map_congr_left left
    have fewer : ((s.queue.erase t).map s.event).Sublist (s.queue.map s.event) := List.erase_sublist.map _
    show (ListScheduler.mk ((s.queue.erase t).map event)).Ordered
    rw [same]
    exact ⟨kept.sorted.sorted.sublist fewer, fun e queued => kept.sorted.queued e (fewer.subset queued)⟩
  · intro p queued
    show s.clock ≤ (event p).time
    rw [left p queued]
    exact kept.future p ((mem p).mp queued).2
  · rw [armed]
    exact kept.fresh
  · intro b expiring
    rw [expired] at expiring
    obtain ⟨past, before⟩ := kept.past b expiring
    refine ⟨past, ?_⟩
    intro p queued
    show b.event < event p
    rw [left p queued]
    exact before p ((mem p).mp queued).2

/-- The first event of the queue, on its way to its handler. -/
theorem Kept.deque {rest : List τ} {status : τ → TimerStatus} {running : Option τ} (kept : Kept s log) (first : s.queue = t :: rest) :
    Kept ⟨(s.event t).time, s.uid, rest, Function.update s.event t { s.event t with uid := -(s.event t).uid }, status, running⟩
      (log ++ [.expired (s.arming t)]) := by
  have nodup := kept.nodup
  rw [first, List.nodup_cons] at nodup
  have member : t ∈ s.queue := by rw [first]; exact List.mem_cons_self
  have positive := (kept.positive t).mp member
  generalize defined : Function.update s.event t { s.event t with uid := -(s.event t).uid } = event
  have mine : event t = { s.event t with uid := -(s.event t).uid } := by rw [← defined, Function.update_self]
  have others : ∀ p, p ≠ t → event p = s.event p := fun p other => by rw [← defined, Function.update_of_ne other]
  have left : ∀ p ∈ rest, event p = s.event p := by
    intro p queued
    refine others p ?_
    rintro rfl
    exact nodup.1 queued
  have sorted : (ListScheduler.mk (s.event t :: rest.map s.event)).Ordered := by
    have whole := kept.sorted
    rwa [list, first, List.map_cons] at whole
  have behind : ∀ p ∈ rest, s.event t < s.event p := fun p queued =>
    (List.pairwise_cons.mp sorted.sorted).1 _ (List.mem_map_of_mem queued)
  have armed : armings (log ++ [.expired (s.arming t)]) = armings log := by
    rw [armings_append]
    exact List.append_nil _
  have expired : expirings (log ++ [.expired (s.arming t)]) = expirings log ++ [s.arming t] := by
    rw [expirings_append]
    rfl
  have dropped : drops (log ++ [.expired (s.arming t)]) = drops log := by
    rw [drops_append]
    exact List.append_nil _
  refine ⟨⟨?_, ?_, ?_⟩, nodup.2, ?_, ?_, ?_, ?_, ?_⟩
  · have queued : s.queue.map s.arming = [s.arming t] ++ rest.map fun p => (⟨(event p).uid, p, (event p).time⟩ : Arming τ) := by
      rw [first, List.map_cons]
      refine congrArg (s.arming t :: ·) (List.map_congr_left fun p queued => ?_)
      rw [left p queued]
      rfl
    have shares := kept.shares
    rw [queued] at shares
    rw [armed, expired, dropped]
    refine shares.trans ?_
    rw [← List.append_assoc]
    refine List.Perm.append_right _ ?_
    rw [List.append_assoc, List.append_assoc]
    exact List.Perm.append_left _ List.perm_append_comm
  · rw [armed]
    exact kept.numbered
  · rw [expired, List.pairwise_append]
    refine ⟨kept.ordered, List.pairwise_singleton _ _, ?_⟩
    intro a earlier b last
    rw [List.mem_singleton.mp last]
    exact (kept.past a earlier).2 t member
  · intro p
    show p ∈ rest ↔ 0 < (event p).uid
    by_cases same : p = t
    · subst same
      rw [mine]
      dsimp only
      constructor
      · exact fun queued => absurd queued nodup.1
      · omega
    · rw [others p same, ← kept.positive p, first, List.mem_cons]
      exact (or_iff_right same).symm
  · have same : rest.map event = rest.map s.event := List.map_congr_left left
    show (ListScheduler.mk (rest.map event)).Ordered
    rw [same]
    exact sorted.tail
  · intro p queued
    show (s.event t).time ≤ (event p).time
    rw [left p queued]
    exact Event.time_le_of_le (behind p queued).le
  · rw [armed]
    exact kept.fresh
  · intro a expiring
    rw [expired] at expiring
    rcases List.mem_append.mp expiring with earlier | last
    · obtain ⟨past, before⟩ := kept.past a earlier
      refine ⟨past.trans (kept.future t member), ?_⟩
      intro p queued
      show a.event < event p
      rw [left p queued]
      exact (before t member).trans (behind p queued)
    · rw [List.mem_singleton.mp last]
      refine ⟨le_rfl, ?_⟩
      intro p queued
      show s.event t < event p
      rw [left p queued]
      exact behind p queued

/-- The timers' own record of what is queued. -/
def Marked (s : TimerScheduler τ) : Prop := ∀ t, t ∈ s.queue ↔ s.status t = .pending

theorem marked_armed (marked : Marked s) (mem : ∀ p, p ∈ next.queue ↔ p = t ∨ p ∈ s.queue) (same : next.status = s.status) :
    Marked (next.setStatus t .pending) := by
  intro p
  show p ∈ next.queue ↔ Function.update next.status t .pending p = .pending
  rw [mem, same]
  by_cases mine : p = t
  · subst mine
    simp
  · rw [Function.update_of_ne mine, ← marked p]
    exact or_iff_right mine

theorem marked_freed {status : TimerStatus} (marked : Marked s) (mem : ∀ p, p ∈ next.queue ↔ p ≠ t ∧ p ∈ s.queue)
    (same : next.status = s.status) (other : status ≠ .pending) : Marked (next.setStatus t status) := by
  intro p
  show p ∈ next.queue ↔ Function.update next.status t status p = .pending
  rw [mem, same]
  by_cases mine : p = t
  · subst mine
    simp [other]
  · rw [Function.update_of_ne mine, ← marked p]
    exact and_iff_right mine

/-- The end of an `expire` concerns the status of its timer only. -/
theorem Kept.expireReturns (kept : Kept s log) (marked : Marked s) :
    Kept s.expireReturns log ∧ Marked s.expireReturns ∧ s.expireReturns.clock = s.clock := by
  unfold TimerScheduler.expireReturns
  cases s.running with
  | none => exact ⟨kept, marked, rfl⟩
  | some t =>
    have ended : Kept { s with running := none } log :=
      ⟨⟨kept.shares, kept.numbered, kept.ordered⟩, kept.nodup, kept.positive, kept.sorted, kept.future, kept.fresh, kept.past⟩
    dsimp only
    split
    · rename_i handling
      refine ⟨ended.setStatus t .idle, ?_, rfl⟩
      intro p
      show p ∈ s.queue ↔ Function.update s.status t .idle p = .pending
      rw [marked p]
      by_cases mine : p = t
      · subst mine
        rw [handling, Function.update_self]
        decide
      · rw [Function.update_of_ne mine]
    · exact ⟨ended, marked, rfl⟩

/-- What one call does. -/
theorem step_kept {call : TimerCall τ} (kept : Kept s log) (marked : Marked s) (admitted : s.Admitted call) :
    ∃ next out, s.step call = some (next, out) ∧ Kept next (log ++ out) ∧ Marked next ∧ s.clock ≤ next.clock := by
  cases call with
  | sched t delay =>
    obtain ⟨nonneg, idle⟩ := admitted
    have absent : t ∉ s.queue := by
      rw [marked t, idle]
      decide
    obtain ⟨next, done, kept', alike, mem⟩ := kept.schedule absent nonneg
    refine ⟨next.setStatus t .pending, _, ?_, kept'.setStatus t .pending, marked_armed marked mem alike.status, alike.clock.ge⟩
    rw [step, sched, if_neg (not_not.mpr idle), done]
    rfl
  | resched t delay =>
    by_cases pending : s.status t = .pending
    · obtain ⟨freed, first, kept', alike, mem⟩ := kept.cancelEvent ((marked t).mpr pending)
      obtain ⟨next, done, kept'', alike', mem'⟩ := kept'.schedule (fun queued => ((mem t).mp queued).1 rfl) admitted
      refine ⟨next.setStatus t .pending, [.dropped (s.arming t)] ++ [.armed (next.arming t)], ?_, ?_,
        marked_armed marked ?_ (alike'.status.trans alike.status), (alike'.clock.trans alike.clock).ge⟩
      · rw [step, resched, if_pos pending, first]
        simp only [Option.bind_eq_bind, Option.bind_some]
        rw [done, if_pos pending]
        rfl
      · rw [← List.append_assoc]
        exact kept''.setStatus t .pending
      · intro p
        rw [mem', mem]
        tauto
    · have absent : t ∉ s.queue := mt (marked t).mp pending
      obtain ⟨next, done, kept', alike, mem⟩ := kept.schedule absent admitted
      refine ⟨next.setStatus t .pending, _, ?_, kept'.setStatus t .pending, marked_armed marked mem alike.status, alike.clock.ge⟩
      rw [step, resched, if_neg pending]
      simp only [Option.bind_eq_bind, Option.bind_some]
      rw [done, if_neg pending]
      rfl
  | cancel t =>
    have pending : s.status t = .pending := admitted
    obtain ⟨next, done, kept', alike, mem⟩ := kept.cancelEvent ((marked t).mpr pending)
    refine ⟨next.setStatus t .idle, _, ?_, kept'.setStatus t .idle, marked_freed marked mem alike.status (by decide), alike.clock.ge⟩
    rw [step, cancel, if_neg (not_not.mpr pending), done]
    rfl
  | forceCancel t =>
    by_cases pending : s.status t = .pending
    · obtain ⟨next, done, kept', alike, mem⟩ := kept.cancelEvent ((marked t).mpr pending)
      refine ⟨next.setStatus t .idle, _, ?_, kept'.setStatus t .idle, marked_freed marked mem alike.status (by decide), alike.clock.ge⟩
      rw [step, forceCancel, if_pos pending, done]
      rfl
    · refine ⟨s, [], ?_, by rwa [List.append_nil], marked, le_rfl⟩
      rw [step, forceCancel, if_neg pending]
      rfl
  | dispatch =>
    cases first : s.queue with
    | nil =>
      refine ⟨s, [], ?_, by rwa [List.append_nil], marked, le_rfl⟩
      rw [step, dispatch, first]
    | cons t rest =>
      have member : t ∈ s.queue := by rw [first]; exact List.mem_cons_self
      have due := kept.future t member
      have pending := (marked t).mp member
      have popped : Kept ⟨(s.event t).time, s.uid, rest, _, s.status, some t⟩ _ := kept.deque first
      refine ⟨_, _, ?_, popped.setStatus t .handling, ?_, due⟩
      · rw [step, dispatch, first]
        dsimp only
        rw [if_neg (not_lt.mpr due), if_neg (not_not.mpr pending)]
        rfl
      · have nodup := kept.nodup
        rw [first, List.nodup_cons] at nodup
        refine marked_freed marked (fun p => ?_) rfl (by decide)
        show p ∈ rest ↔ _
        rw [first, List.mem_cons]
        constructor
        · intro queued
          refine ⟨?_, Or.inr queued⟩
          rintro rfl
          exact nodup.1 queued
        · exact fun queued => queued.2.resolve_left queued.1
  | expireReturns =>
    obtain ⟨kept', marked', clock⟩ := kept.expireReturns marked
    exact ⟨s.expireReturns, [], rfl, by rwa [List.append_nil], marked', clock.ge⟩

/-- Queue, numbers and statuses say the same of every timer. -/
structure Agree (s : TimerScheduler τ) : Prop where
  queued : ∀ t, s.queue.count t = if s.status t = .pending then 1 else 0
  positive : ∀ t, 0 < (s.event t).uid ↔ t ∈ s.queue

theorem Kept.agree (kept : Kept s log) (marked : Marked s) : s.Agree where
  queued t := by
    split
    · rename_i pending
      exact List.count_eq_one_of_mem kept.nodup ((marked t).mpr pending)
    · rename_i other
      exact List.count_eq_zero_of_not_mem (mt (marked t).mp other)
  positive t := (kept.positive t).symm

theorem run_kept {calls : List (TimerCall τ)} (outs : List (List (TimerReport τ))) (kept : Kept s outs.flatten) (marked : Marked s)
    (admitted : machine.Along Admitted s calls) :
    ∃ last more, machine.run s calls = some (last, more) ∧ Kept last (outs ++ more).flatten ∧ Marked last ∧ s.clock ≤ last.clock := by
  refine Machine.run_logged (I := fun last outs => Kept last outs.flatten ∧ Marked last ∧ s.clock ≤ last.clock) ?_
    ⟨kept, marked, le_rfl⟩ admitted
  rintro mid outs call ⟨kept, marked, past⟩ fine
  obtain ⟨next, out, taken, kept', marked', later⟩ := step_kept kept marked fine
  refine ⟨next, out, taken, ?_, marked', past.trans later⟩
  rwa [List.flatten_append, List.flatten_singleton]

omit [DecidableEq τ] in
theorem start_marked : Marked (start : TimerScheduler τ) := fun t => ⟨fun member => absurd member List.not_mem_nil, fun pending => by cases pending⟩

/-- In every run, no call aborts, queue and timers agree after each part of it, the
clock does not go back, and every arming has its one fate, at its time and in its turn. -/
theorem timers_agree (first later : List (TimerCall τ)) (admitted : machine.Along Admitted (start : TimerScheduler τ) (first ++ later)) :
    ∃ mid last outs more, machine.run start first = some (mid, outs) ∧ machine.run mid later = some (last, more) ∧
      mid.Agree ∧ last.Agree ∧ mid.clock ≤ last.clock ∧ last.Accounts (outs ++ more).flatten := by
  obtain ⟨mid, outs, ran, kept, marked, _⟩ := run_kept [] start_kept start_marked admitted.left
  obtain ⟨last, more, ran', kept', marked', onward⟩ := run_kept _ kept marked (admitted.right ran)
  exact ⟨mid, last, outs, more, ran, ran', kept.agree marked, kept'.agree marked', onward, kept'.toAccounts⟩

theorem timers_agree_sample : ∃ mid last outs more,
    machine.run start [.sched false 5, .sched true 5, .dispatch, .resched false 0, .forceCancel true] = some (mid, outs) ∧
    machine.run mid [.expireReturns, .dispatch, .expireReturns] = some (last, more) ∧
    mid.Agree ∧ last.Agree ∧ mid.clock ≤ last.clock ∧ last.Accounts (outs ++ more).flatten :=
  timers_agree _ _ (by decide +kernel)

end TimerScheduler

end Ns2
