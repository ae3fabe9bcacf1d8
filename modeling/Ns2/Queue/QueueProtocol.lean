import Ns2.Library.Machine
import Mathlib.Data.List.Basic

namespace Ns2

universe u v w x y

/-- What a discipline supplies to `Queue`: `enque` answers with the packets that it drops, and
`command` runs the commands of the discipline. -/
structure Discipline (σ : Type u) (ι : Type v) (κ : Type w) (ρ : Type x) (α : Type y) where
  enque : σ → ι → σ × List α
  deque : σ → σ × Option α
  command : σ → κ → σ × ρ

/-- `util_buf_` and the other measures of utilization are left out. -/
structure Queue (σ : Type u) where
  discipline : σ
  blocked : Bool
  unblockOnResume : Bool

namespace Queue

variable {σ : Type u} {ι : Type v} {κ : Type w} {ρ : Type x} {α : Type y}

/-- What a call hands to the link, drops, and answers. -/
structure Output (ρ : Type x) (α : Type y) where
  handed : Option α
  dropped : List α
  answer : Option ρ

inductive Input (ι : Type v) (κ : Type w)
  | recv (arrival : ι)
  | resume
  | command (name : κ)

/-- The arrivals among the calls. -/
def arrivals (calls : List (Input ι κ)) : List ι := calls.filterMap fun
  | .recv arrival => some arrival
  | _ => none

@[simp] theorem arrivals_append (first rest : List (Input ι κ)) : arrivals (first ++ rest) = arrivals first ++ arrivals rest :=
  List.filterMap_append

theorem arrivals_replicate (n : ℕ) (arrival : ι) : arrivals (List.replicate n (.recv arrival : Input ι κ)) = List.replicate n arrival :=
  List.filterMap_replicate_of_some rfl

def recv (d : Discipline σ ι κ ρ α) (s : Queue σ) (arrival : ι) : Queue σ × Output ρ α :=
  let enqued := d.enque s.discipline arrival
  let s := { s with discipline := enqued.1 }
  if s.blocked then (s, ⟨none, enqued.2, none⟩)
  else
    -- the queue might drop the packet even if it was previously empty
    let dequed := d.deque s.discipline
    let s := { s with discipline := dequed.1 }
    match dequed.2 with
    | some p => ({ s with blocked := true }, ⟨some p, enqued.2, none⟩)
    | none => (s, ⟨none, enqued.2, none⟩)

def resume (d : Discipline σ ι κ ρ α) (s : Queue σ) : Queue σ × Output ρ α :=
  let dequed := d.deque s.discipline
  let s := { s with discipline := dequed.1 }
  match dequed.2 with
  | some p => (s, ⟨some p, [], none⟩)
  | none => ({ s with blocked := !s.unblockOnResume }, ⟨none, [], none⟩)

def command (d : Discipline σ ι κ ρ α) (s : Queue σ) (name : κ) : Queue σ × Output ρ α :=
  let done := d.command s.discipline name
  ({ s with discipline := done.1 }, ⟨none, [], some done.2⟩)

def step (d : Discipline σ ι κ ρ α) (s : Queue σ) : Input ι κ → Queue σ × Output ρ α
  | .recv arrival => recv d s arrival
  | .resume => resume d s
  | .command name => command d s name

def machine (d : Discipline σ ι κ ρ α) : Machine (Queue σ) (Input ι κ) (Output ρ α) := ⟨fun s i => some (step d s i)⟩

/-- The packets that a run hands to the link. -/
def handovers (outs : List (Output ρ α)) : List α := outs.flatMap fun out => out.handed.toList

/-- A discipline that counts the calls of `deque`, those at an empty queue too. `stores` says of which arrivals it keeps the packet. -/
structure Counting (d : Discipline σ ι κ ρ α) (counter : σ → ℕ) (queue : σ → List α) (stores : σ → ι → Prop) : Prop where
  enque : ∀ s arrival, counter (d.enque s arrival).1 = counter s
  stored : ∀ s arrival, queue (d.enque s arrival).1 ≠ [] ↔ queue s ≠ [] ∨ stores s arrival
  deque : ∀ s, counter (d.deque s).1 = counter s + 1
  first : ∀ s, (d.deque s).2 = (queue s).head?

/-- The call does not ask for a packet of an empty queue. -/
def Serves (queue : σ → List α) (stores : σ → ι → Prop) (s : Queue σ) : Input ι κ → Prop
  | .recv arrival => s.blocked = true ∨ queue s.discipline ≠ [] ∨ stores s.discipline arrival
  | .resume => queue s.discipline ≠ []
  | .command _ => True

/-- A run that starts when the counter is zero: at the first call, or after a call of `reset`. -/
structure Since (d : Discipline σ ι κ ρ α) (start : Queue σ) (reset : κ) (s : Queue σ) (calls : List (Input ι κ)) : Prop where
  opened : s = start ∨ ∃ earlier outs t, (machine d).run start earlier = some (t, outs) ∧ s = (step d t (.command reset)).1
  quiet : .command reset ∉ calls

section Counted

variable {d : Discipline σ ι κ ρ α} {counter : σ → ℕ} {queue : σ → List α} {stores : σ → ι → Prop} {s last : Queue σ}

/-- A call of `deque` is counted, and hands over a packet exactly if there is one. -/
theorem Counting.handed (counting : Counting d counter queue stores) (t : σ) :
    counter t + (d.deque t).2.toList.length ≤ counter (d.deque t).1 ∧
      (counter (d.deque t).1 = counter t + (d.deque t).2.toList.length ↔ queue t ≠ []) := by
  rw [counting.deque, counting.first]
  cases queue t <;> simp

/-- A call adds what it hands over to the counter at least, and no more exactly if it serves a packet. -/
theorem Counting.step (counting : Counting d counter queue stores) (s : Queue σ) {i : Input ι κ}
    (kept : ∀ name, i = .command name → ∀ t, counter (d.command t name).1 = counter t) :
    counter s.discipline + (step d s i).2.handed.toList.length ≤ counter (step d s i).1.discipline ∧
      (counter (step d s i).1.discipline = counter s.discipline + (step d s i).2.handed.toList.length ↔ Serves queue stores s i) := by
  cases i with
  | recv arrival =>
    have enqued := counting.enque s.discipline arrival
    have handed := counting.handed (d.enque s.discipline arrival).1
    rw [counting.stored, enqued] at handed
    unfold Queue.step recv Serves
    by_cases blocked : s.blocked = true
    · simp [blocked, enqued]
    · cases out : (d.deque (d.enque s.discipline arrival).1).2 <;> simpa [blocked, out] using handed
  | resume =>
    have handed := counting.handed s.discipline
    unfold Queue.step resume Serves
    cases out : (d.deque s.discipline).2 <;> simpa [out] using handed
  | command name =>
    have same := kept name rfl s.discipline
    simp [Queue.step, command, Serves, same]

/-- Over a run the counter is what was handed over exactly if every call that asks for a packet serves one. -/
theorem Counting.run (counting : Counting d counter queue stores) {calls : List (Input ι κ)} {outs : List (Output ρ α)}
    (kept : ∀ name, .command name ∈ calls → ∀ t, counter (d.command t name).1 = counter t)
    (run : (machine d).run s calls = some (last, outs)) :
    counter s.discipline + (handovers outs).length ≤ counter last.discipline ∧
      (counter last.discipline = counter s.discipline + (handovers outs).length ↔ (machine d).Along (Serves queue stores) s calls) := by
  induction calls generalizing s outs with
  | nil =>
    cases Option.some.inj run
    exact ⟨Nat.le_refl _, fun _ => trivial, fun _ => rfl⟩
  | cons i calls ih =>
    have taken : (machine d).step s i = some ((Queue.step d s i).1, (Queue.step d s i).2) := rfl
    rw [Machine.run_cons taken] at run
    obtain ⟨final, finished, joined⟩ := Option.map_eq_some_iff.mp run
    cases joined
    obtain ⟨first, exactly⟩ := counting.step s fun name same => kept name (same ▸ List.mem_cons_self)
    obtain ⟨later, onward⟩ := ih (fun name mem => kept name (List.mem_cons_of_mem i mem)) finished
    have total : (handovers ((Queue.step d s i).2 :: final.2)).length = (Queue.step d s i).2.handed.toList.length + (handovers final.2).length := by
      unfold handovers
      rw [List.flatMap_cons, List.length_append]
    rw [total]
    refine ⟨by omega, fun all => ⟨exactly.mp (by omega), onward.mp (by omega)⟩, fun along => ?_⟩
    have here := exactly.mpr along.head
    have there := onward.mpr (along.tail rfl)
    omega

/-- Since the counter was reset it is what was handed over exactly if every call that asks for a packet serves one. -/
theorem Counting.since (counting : Counting d counter queue stores) {start : Queue σ} {reset : κ} {calls : List (Input ι κ)}
    {outs : List (Output ρ α)} (zero : counter start.discipline = 0) (resets : ∀ t, counter (d.command t reset).1 = 0)
    (kept : ∀ name, name ≠ reset → ∀ t, counter (d.command t name).1 = counter t) (since : Since d start reset s calls)
    (run : (machine d).run s calls = some (last, outs)) :
    counter last.discipline = (handovers outs).length ↔ (machine d).Along (Serves queue stores) s calls := by
  have opened : counter s.discipline = 0 := by
    rcases since.opened with same | ⟨_, _, t, _, same⟩
    · rw [same, zero]
    · rw [same]
      exact resets t.discipline
  have exactly := (counting.run (fun name mem => kept name fun same => since.quiet (same ▸ mem)) run).2
  rwa [opened, Nat.zero_add] at exactly

end Counted

end Queue

end Ns2
