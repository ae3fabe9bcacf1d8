import Ns2.Common.ListScheduler

universe u

namespace Ns2

inductive TimerStatus
  | idle
  | pending
  | handling
  deriving DecidableEq

/-- `force_cancel` leaves a timer alone whose handler is running. -/
def TimerStatus.forceCancel : TimerStatus → TimerStatus
  | pending => idle
  | status => status

/-- `sched` aborts unless the timer is idle. -/
def TimerStatus.sched : TimerStatus → Option TimerStatus
  | idle => some pending
  | _ => none

/-- What `handle` does when `expire` has returned. -/
def TimerStatus.handled : TimerStatus → TimerStatus
  | handling => idle
  | status => status

/-- A `ListScheduler` whose events are those of timers. `queue` has the timers
whose `event_` is linked into `queue_`, next one first. -/
structure TimerScheduler (τ : Type u) where
  clock : ℚ
  uid : ℤ
  queue : List τ
  event : τ → Event
  status : τ → TimerStatus
  /-- The timer whose `expire` is running, called from `dispatch`. -/
  running : Option τ

/-- One arming of a timer: the number of its event, and the time it is for. -/
structure Arming (τ : Type u) where
  uid : ℤ
  timer : τ
  time : ℚ

/-- What happens to an arming. -/
inductive TimerReport (τ : Type u)
  | armed (arming : Arming τ)
  | dropped (arming : Arming τ)
  | expired (arming : Arming τ)

/-- What is called from outside or from within an `expire`, one turn of the loop
of `Scheduler::run`, and the end of an `expire`. -/
inductive TimerCall (τ : Type u)
  | sched (t : τ) (delay : ℚ)
  | resched (t : τ) (delay : ℚ)
  | cancel (t : τ)
  | forceCancel (t : τ)
  | dispatch
  | expireReturns

namespace TimerScheduler

variable {τ : Type u} [DecidableEq τ]

def start : TimerScheduler τ where
  clock := 0
  uid := 1
  queue := []
  event _ := ⟨0, 0⟩
  status _ := .idle
  running := none

/-- The loop of `ListScheduler::insert`. -/
def link (event : τ → Event) (t : τ) : List τ → List τ
  | [] => [t]
  | p :: rest => if (event t).time < (event p).time then t :: p :: rest else p :: link event t rest

/-- The loop of `ListScheduler::cancel`, which aborts at the end of the list. -/
def unlink (t : τ) : List τ → Option (List τ)
  | [] => none
  | p :: rest => if p = t then some rest else (unlink t rest).map (p :: ·)

/-- The arming that a timer's event is for. -/
def arming (s : TimerScheduler τ) (t : τ) : Arming τ := ⟨(s.event t).uid, t, (s.event t).time⟩

/-- `Scheduler::schedule` by `_sched`. `none` where the source aborts. -/
def schedule (t : τ) (delay : ℚ) (s : TimerScheduler τ) : Option (TimerScheduler τ) :=
  if 0 < (s.event t).uid then none
  else if s.uid < 0 then none
  else
    let event := Function.update s.event t ⟨s.clock + delay, s.uid⟩
    some { s with uid := s.uid + 1, event := event, queue := link event t s.queue }

/-- `ListScheduler::cancel` by `_cancel`. -/
def cancelEvent (t : τ) (s : TimerScheduler τ) : Option (TimerScheduler τ) :=
  if (s.event t).uid ≤ 0 then some s
  else (unlink t s.queue).map fun queue =>
    { s with queue := queue, event := Function.update s.event t { s.event t with uid := -(s.event t).uid } }

def setStatus (t : τ) (status : TimerStatus) (s : TimerScheduler τ) : TimerScheduler τ :=
  { s with status := Function.update s.status t status }

def cancel (t : τ) (s : TimerScheduler τ) : Option (TimerScheduler τ × List (TimerReport τ)) := do
  if s.status t ≠ .pending then none
  else
    let next ← s.cancelEvent t
    return (next.setStatus t .idle, [.dropped (s.arming t)])

def sched (t : τ) (delay : ℚ) (s : TimerScheduler τ) : Option (TimerScheduler τ × List (TimerReport τ)) := do
  if s.status t ≠ .idle then none
  else
    let next ← s.schedule t delay
    return (next.setStatus t .pending, [.armed (next.arming t)])

def resched (t : τ) (delay : ℚ) (s : TimerScheduler τ) : Option (TimerScheduler τ × List (TimerReport τ)) := do
  let freed ← if s.status t = .pending then s.cancelEvent t else some s
  let next ← freed.schedule t delay
  return (next.setStatus t .pending, (if s.status t = .pending then [.dropped (s.arming t)] else []) ++ [.armed (next.arming t)])

def forceCancel (t : τ) (s : TimerScheduler τ) : Option (TimerScheduler τ × List (TimerReport τ)) := do
  if s.status t = .pending then
    let next ← s.cancelEvent t
    return (next.setStatus t .idle, [.dropped (s.arming t)])
  else
    return (s, [])

/-- `deque`, `Scheduler::dispatch` and `TimerHandler::handle` up to the call of `expire`. -/
def dispatch (s : TimerScheduler τ) : Option (TimerScheduler τ × List (TimerReport τ)) :=
  match s.queue with
  | [] => some (s, [])
  | t :: rest =>
    let e := s.event t
    if e.time < s.clock then none
    else if s.status t ≠ .pending then none
    else
      let next := { s with clock := e.time, queue := rest, event := Function.update s.event t { e with uid := -e.uid }, running := some t }
      some (next.setStatus t .handling, [.expired ⟨e.uid, t, next.clock⟩])

/-- The end of `handle`. -/
def expireReturns (s : TimerScheduler τ) : TimerScheduler τ :=
  match s.running with
  | none => s
  | some t =>
    let next := { s with running := none }
    if s.status t = .handling then next.setStatus t .idle else next

def step (s : TimerScheduler τ) : TimerCall τ → Option (TimerScheduler τ × List (TimerReport τ))
  | .sched t delay => s.sched t delay
  | .resched t delay => s.resched t delay
  | .cancel t => s.cancel t
  | .forceCancel t => s.forceCancel t
  | .dispatch => s.dispatch
  | .expireReturns => some (s.expireReturns, [])

def machine : Machine (TimerScheduler τ) (TimerCall τ) (List (TimerReport τ)) := ⟨step⟩

/-- Delays are not negative, `sched` is for idle timers and `cancel` for pending
ones, and the simulator dispatches no event while an `expire` runs. -/
def Admitted (s : TimerScheduler τ) : TimerCall τ → Prop
  | .sched t delay => 0 ≤ delay ∧ s.status t = .idle
  | .resched _ delay => 0 ≤ delay
  | .cancel t => s.status t = .pending
  | .forceCancel _ => True
  | .dispatch => s.running = none
  | .expireReturns => s.running ≠ none

instance (s : TimerScheduler τ) : DecidablePred s.Admitted
  | .sched _ _ => inferInstanceAs (Decidable (_ ∧ _))
  | .resched _ delay => inferInstanceAs (Decidable (0 ≤ delay))
  | .cancel t => inferInstanceAs (Decidable (s.status t = .pending))
  | .forceCancel _ => inferInstanceAs (Decidable True)
  | .dispatch => inferInstanceAs (Decidable (s.running = none))
  | .expireReturns => inferInstanceAs (Decidable (s.running ≠ none))

end TimerScheduler

end Ns2
