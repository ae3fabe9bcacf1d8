import Ns2.Library.Machine
import Mathlib.Data.List.Basic
import Mathlib.Algebra.Order.Group.Multiset
import Mathlib.Data.Multiset.Basic

universe u v w x

/-- What a call to a queueing component gives back, and what it throws away. -/
structure Outcome (π : Type u) where
  returned : Option π
  dropped : List π
deriving DecidableEq

/-- What has become of the items that arrived, in order of time. -/
structure Ledger (π : Type u) where
  arrived : List π
  returned : List π
  dropped : List π

namespace Ledger

variable {π : Type u} {κ : Type v} {σ : Type w} {ι : Type x}

def empty : Ledger π := ⟨[], [], []⟩

/-- The ledger after a call with these arrivals. -/
def record (l : Ledger π) (arrivals : List π) (out : Outcome π) : Ledger π where
  arrived := l.arrived ++ arrivals
  returned := l.returned ++ out.returned.toList
  dropped := l.dropped ++ out.dropped

/-- The ledger of a whole run. -/
def ofRun (arrivals : ι → List π) (calls : List ι) (outs : List (Outcome π)) : Ledger π where
  arrived := calls.flatMap arrivals
  returned := outs.flatMap fun out => out.returned.toList
  dropped := outs.flatMap Outcome.dropped

def append (l m : Ledger π) : Ledger π :=
  ⟨l.arrived ++ m.arrived, l.returned ++ m.returned, l.dropped ++ m.dropped⟩

theorem append_ofRun_cons (arrivals : ι → List π) (l : Ledger π) (i : ι) (is : List ι) (out : Outcome π)
    (outs : List (Outcome π)) : l.append (ofRun arrivals (i :: is) (out :: outs)) =
      (l.record (arrivals i) out).append (ofRun arrivals is outs) := by
  simp only [append, ofRun, record, List.flatMap_cons, List.append_assoc]

/-- A property of states and ledgers that every admitted call keeps holds
of the state and the ledger at the end of a run. -/
theorem run_invariant {M : Machine σ ι (Outcome π)} {arrivals : ι → List π} {P : σ → ι → Prop}
    {I : σ → Ledger π → Prop} (kept : ∀ s l i, I s l → P s i →
      ∃ next out, M.step s i = some (next, out) ∧ I next (l.record (arrivals i) out))
    {s : σ} {l : Ledger π} {is : List ι} (holds : I s l) (along : M.Along P s is) :
    ∃ last outs, M.run s is = some (last, outs) ∧ I last (l.append (ofRun arrivals is outs)) := by
  induction is generalizing s l with
  | nil => exact ⟨s, [], rfl, by simpa [append, ofRun] using holds⟩
  | cons i is ih =>
    obtain ⟨next, out, taken, after⟩ := kept s l i holds along.head
    obtain ⟨last, outs, rest, final⟩ := ih after (along.tail taken)
    refine ⟨last, out :: outs, ?_, ?_⟩
    · rw [Machine.run_cons taken, rest]
      rfl
    · rw [append_ofRun_cons]
      exact final

/-- The same for calls that carry the times at which they are made. -/
theorem run_timed {τ : Type*} {R : τ → τ → Prop} {M : Machine σ ι (Outcome π)} {arrivals : ι → List π} {time : ι → τ}
    {P : ι → Prop} {I : τ → σ → Ledger π → Prop} (kept : ∀ t s l i, I t s l → P i → R t (time i) →
      ∃ next out, M.step s i = some (next, out) ∧ I (time i) next (l.record (arrivals i) out))
    {t : τ} {s : σ} {l : Ledger π} {is : List ι} (holds : I t s l) (admitted : ∀ i ∈ is, P i)
    (ordered : (t :: is.map time).Pairwise R) :
    ∃ last final outs, M.run s is = some (last, outs) ∧ I final last (l.append (ofRun arrivals is outs)) := by
  induction is generalizing t s l with
  | nil => exact ⟨s, t, [], rfl, by simpa [append, ofRun] using holds⟩
  | cons i is ih =>
    obtain ⟨first, others⟩ := List.forall_mem_cons.mp admitted
    obtain ⟨later, rest⟩ := List.pairwise_cons.mp ordered
    obtain ⟨next, out, taken, after⟩ := kept t s l i holds first (later _ List.mem_cons_self)
    obtain ⟨last, final, outs, run, done⟩ := ih after others rest
    refine ⟨last, final, out :: outs, ?_, ?_⟩
    · rw [Machine.run_cons taken, run]
      rfl
    · rw [append_ofRun_cons]
      exact done

section Accounts

variable [DecidableEq κ]

/-- The items with one key, in order. -/
def ofKey (key : π → κ) (i : κ) (l : List π) : List π := l.filter fun p => key p = i

/-- Every arrival is returned, dropped or still in the queue of its key, as
often as it arrived, and each queue is first in, first out. -/
structure Accounts (key : π → κ) (queues : κ → List π) (l : Ledger π) : Prop where
  balance : ∀ i, (ofKey key i l.arrived).Perm (ofKey key i l.returned ++ ofKey key i l.dropped ++ queues i)
  order : ∀ i, (ofKey key i l.returned ++ queues i).Sublist (ofKey key i l.arrived)

variable {key : π → κ} {queues : κ → List π} {l : Ledger π} {p : π} {rest : List π} {i : κ}

theorem ofKey_append_self (key : π → κ) (l : List π) (p : π) : ofKey key (key p) (l ++ [p]) = ofKey key (key p) l ++ [p] := by
  simp [ofKey]

theorem ofKey_append_of_ne (l : List π) (other : key p ≠ i) : ofKey key i (l ++ [p]) = ofKey key i l := by
  simp [ofKey, other]

theorem Accounts.empty (key : π → κ) : Accounts key (fun _ => []) (Ledger.empty) :=
  ⟨fun _ => List.Perm.refl _, fun _ => List.Sublist.refl _⟩

theorem Accounts.key_eq (accounts : Accounts key queues l) (member : p ∈ queues i) : key p = i := by
  have arrived := (accounts.balance i).symm.subset (List.mem_append_right _ member)
  simpa using (List.mem_filter.mp arrived).2

theorem Accounts.arrive (accounts : Accounts key queues l) (p : π) :
    Accounts key (Function.update queues (key p) (queues (key p) ++ [p])) { l with arrived := l.arrived ++ [p] } where
  balance i := by
    by_cases same : key p = i
    · subst same
      simp only [ofKey_append_self, Function.update_self]
      rw [← List.append_assoc]
      exact (accounts.balance _).append_right [p]
    · simp only [ofKey_append_of_ne _ same, Function.update_of_ne (Ne.symm same)]
      exact accounts.balance i
  order i := by
    by_cases same : key p = i
    · subst same
      simp only [ofKey_append_self, Function.update_self]
      rw [← List.append_assoc]
      exact (accounts.order _).append_right [p]
    · simp only [ofKey_append_of_ne _ same, Function.update_of_ne (Ne.symm same)]
      exact accounts.order i

/-- The head of a queue is returned. -/
theorem Accounts.release (accounts : Accounts key queues l) (first : queues i = p :: rest) :
    Accounts key (Function.update queues i rest) { l with returned := l.returned ++ [p] } := by
  have own : key p = i := accounts.key_eq (first ▸ List.mem_cons_self)
  refine ⟨fun j => ?_, fun j => ?_⟩
  · by_cases same : j = i
    · subst same
      subst own
      have before := accounts.balance (key p)
      simp only [ofKey_append_self, Function.update_self]
      rw [first] at before
      refine before.trans ?_
      simp only [List.append_assoc, List.singleton_append]
      have moved : (ofKey key (key p) l.dropped ++ p :: rest).Perm (p :: (ofKey key (key p) l.dropped ++ rest)) :=
        List.perm_middle
      exact moved.append_left _
    · have other : key p ≠ j := own ▸ Ne.symm same
      simp only [ofKey_append_of_ne _ other, Function.update_of_ne same]
      exact accounts.balance j
  · by_cases same : j = i
    · subst same
      subst own
      have before := accounts.order (key p)
      simp only [ofKey_append_self, Function.update_self, List.append_assoc, List.singleton_append]
      rwa [first] at before
    · have other : key p ≠ j := own ▸ Ne.symm same
      simp only [ofKey_append_of_ne _ other, Function.update_of_ne same]
      exact accounts.order j

/-- The head of a queue is dropped. -/
theorem Accounts.discard (accounts : Accounts key queues l) (first : queues i = p :: rest) :
    Accounts key (Function.update queues i rest) { l with dropped := l.dropped ++ [p] } := by
  have own : key p = i := accounts.key_eq (first ▸ List.mem_cons_self)
  refine ⟨fun j => ?_, fun j => ?_⟩
  · by_cases same : j = i
    · subst same
      subst own
      have before := accounts.balance (key p)
      simp only [ofKey_append_self, Function.update_self]
      rw [first] at before
      simpa only [List.append_assoc, List.singleton_append] using before
    · have other : key p ≠ j := own ▸ Ne.symm same
      simp only [ofKey_append_of_ne _ other, Function.update_of_ne same]
      exact accounts.balance j
  · by_cases same : j = i
    · subst same
      have before := accounts.order j
      rw [first] at before
      simp only [Function.update_self]
      exact ((List.sublist_cons_self p rest).append_left _).trans before
    · simp only [Function.update_of_ne same]
      exact accounts.order j

/-- An arrival is dropped at once. -/
theorem Accounts.refuse (accounts : Accounts key queues l) (p : π) :
    Accounts key queues { l with arrived := l.arrived ++ [p], dropped := l.dropped ++ [p] } where
  balance i := by
    by_cases same : key p = i
    · subst same
      simp only [ofKey_append_self]
      refine ((accounts.balance (key p)).append_right [p]).trans ?_
      simp only [List.append_assoc]
      have moved : (queues (key p) ++ [p]).Perm ([p] ++ queues (key p)) := List.perm_append_comm
      exact (moved.append_left _).append_left _
    · simp only [ofKey_append_of_ne _ same]
      exact accounts.balance i
  order i := by
    by_cases same : key p = i
    · subst same
      simp only [ofKey_append_self]
      exact (accounts.order (key p)).trans (List.sublist_append_left _ _)
    · simp only [ofKey_append_of_ne _ same]
      exact accounts.order i

end Accounts

end Ledger

/-- What the events of a log do to objects: which they bring into custody and which they dispose of. -/
structure Custody (ε : Type u) (ο : Type v) where
  gains : ε → Multiset ο
  losses : ε → Multiset ο

namespace Custody

variable {ε : Type u} {ο : Type v} {σ : Type w} {ι : Type x} {C : Custody ε ο} {before mid after : Multiset ο} {log rest : List ε}

def gained (C : Custody ε ο) (log : List ε) : Multiset ο := (log.map C.gains).sum

def lost (C : Custody ε ο) (log : List ε) : Multiset ο := (log.map C.losses).sum

@[simp] theorem gained_nil : C.gained [] = 0 := rfl

@[simp] theorem lost_nil : C.lost [] = 0 := rfl

@[simp] theorem gained_cons (e : ε) (log : List ε) : C.gained (e :: log) = C.gains e + C.gained log := rfl

@[simp] theorem lost_cons (e : ε) (log : List ε) : C.lost (e :: log) = C.losses e + C.lost log := rfl

@[simp] theorem gained_append (log rest : List ε) : C.gained (log ++ rest) = C.gained log + C.gained rest := by
  simp [gained]

@[simp] theorem lost_append (log rest : List ε) : C.lost (log ++ rest) = C.lost log + C.lost rest := by
  simp [lost]

theorem lost_map {β : Type*} {f : β → ε} {g : β → ο} (one : ∀ b, C.losses (f b) = {g b}) (l : List β) : C.lost (l.map f) = (l.map g : List ο) := by
  induction l with
  | nil => rfl
  | cons b l ih =>
    rw [List.map_cons, lost_cons, one, ih]
    rfl

theorem gained_map {β : Type*} {f : β → ε} (none : ∀ b, C.gains (f b) = 0) (l : List β) : C.gained (l.map f) = 0 := by
  induction l with
  | nil => rfl
  | cons b l ih => rw [List.map_cons, gained_cons, none, ih, add_zero]

/-- Every object held before or gained is, as often, disposed of or held after. -/
def Accounts (C : Custody ε ο) (before : Multiset ο) (log : List ε) (after : Multiset ο) : Prop :=
  before + C.gained log = C.lost log + after

namespace Accounts

theorem refl (held : Multiset ο) : C.Accounts held [] held := by
  simp [Accounts]

theorem trans (first : C.Accounts before log mid) (second : C.Accounts mid rest after) : C.Accounts before (log ++ rest) after := by
  unfold Accounts at *
  rw [gained_append, lost_append, ← add_assoc, first, add_assoc, second, add_assoc]

/-- One more object comes in. -/
theorem gain {e : ε} (losses : C.losses e = 0) (accounts : C.Accounts (before + C.gains e) log after) : C.Accounts before (e :: log) after := by
  unfold Accounts at *
  rw [gained_cons, lost_cons, losses, zero_add, ← accounts, add_assoc]

/-- One object more is disposed of in the end. -/
theorem lose {e : ε} (gains : C.gains e = 0) (accounts : C.Accounts before log after) : C.Accounts (before + C.losses e) (log ++ [e]) after := by
  unfold Accounts at *
  rw [gained_append, lost_append, gained_cons, lost_cons, gains, gained_nil, lost_nil, add_zero, add_zero, add_zero, add_right_comm, accounts,
    add_right_comm]

/-- What the log does not touch may be held beside. -/
theorem frame (accounts : C.Accounts before log after) (beside : Multiset ο) : C.Accounts (before + beside) log (after + beside) := by
  unfold Accounts at *
  rw [add_right_comm, accounts, add_assoc]

/-- An object that is gained once and was not held is disposed of once, or held and not disposed of. -/
theorem once [DecidableEq ο] (accounts : C.Accounts before log after) {o : ο} (fresh : before.count o = 0) (single : (C.gained log).count o = 1) :
    (C.lost log).count o = 1 ∧ after.count o = 0 ∨ (C.lost log).count o = 0 ∧ after.count o = 1 := by
  have counted := congrArg (Multiset.count o) accounts
  rw [Multiset.count_add, Multiset.count_add, fresh, single] at counted
  omega

/-- In a run whose steps all account for what they do, the whole log does. -/
theorem run {ω : Type*} {M : Machine σ ι ω} {P : σ → ι → Prop} (held : σ → Multiset ο) (events : ω → List ε)
    (step : ∀ s i next out, P s i → M.step s i = some (next, out) → C.Accounts (held s) (events out) (held next))
    {s last : σ} {is : List ι} {outs : List ω} (along : M.Along P s is) (run : M.run s is = some (last, outs)) :
    C.Accounts (held s) (outs.flatMap events) (held last) := by
  induction is generalizing s outs with
  | nil =>
    cases Option.some.inj run
    exact refl _
  | cons i is ih =>
    obtain ⟨next, taken, rest⟩ := Option.bind_eq_some_iff.mp run
    obtain ⟨final, finished, joined⟩ := Option.bind_eq_some_iff.mp rest
    cases Option.some.inj joined
    rw [List.flatMap_cons]
    exact (step s i next.1 next.2 along.head taken).trans (ih (along.tail taken) finished)

end Accounts

end Custody
