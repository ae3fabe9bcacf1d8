import Mathlib.Tactic.Common

universe u v w x y

/-- A deterministic component: one input takes a state to the next state
and an answer. `none` is a call on which the component aborts. -/
structure Machine (σ : Type u) (ι : Type v) (ο : Type w) where
  step : σ → ι → Option (σ × ο)

namespace Machine

variable {σ : Type u} {α : Type x} {ι : Type v} {ο : Type w}

/-- The state and the answers after a sequence of inputs. -/
def run (M : Machine σ ι ο) : σ → List ι → Option (σ × List ο)
  | s, [] => some (s, [])
  | s, i :: is => do
    let next ← M.step s i
    let rest ← M.run next.1 is
    return (rest.1, next.2 :: rest.2)

/-- Every input of the run meets `P` at the state it is given to. -/
def Along (M : Machine σ ι ο) (P : σ → ι → Prop) : σ → List ι → Prop
  | _, [] => True
  | s, i :: is => P s i ∧
      match M.step s i with
      | some (next, _) => M.Along P next is
      | none => True

instance Along.decidable (M : Machine σ ι ο) (P : σ → ι → Prop) [∀ s i, Decidable (P s i)] :
    ∀ s is, Decidable (M.Along P s is)
  | _, [] => isTrue trivial
  | s, i :: is =>
    match step : M.step s i with
    | some (next, out) =>
      have := Along.decidable M P next is
      decidable_of_iff (P s i ∧ M.Along P next is) (by rw [Along, step])
    | none => decidable_of_iff (P s i ∧ True) (by rw [Along, step])

variable {M : Machine σ ι ο}

theorem run_cons {s next : σ} {i : ι} {out : ο} (taken : M.step s i = some (next, out)) (is : List ι) :
    M.run s (i :: is) = (M.run next is).map fun rest => (rest.1, out :: rest.2) := by
  simp only [run, taken, Option.bind_eq_bind, Option.bind_some]
  cases M.run next is <;> rfl

theorem run_cons_cons {s mid next last : σ} {i j : ι} {out out' : ο} {is : List ι} {outs : List ο}
    (first : M.step s i = some (mid, out)) (second : M.step mid j = some (next, out'))
    (rest : M.run next is = some (last, outs)) :
    M.run s (i :: j :: is) = some (last, out :: out' :: outs) := by
  rw [run_cons first, run_cons second, rest]
  rfl

theorem run_append {s last : σ} {is : List ι} {outs : List ο} (first : M.run s is = some (last, outs))
    (js : List ι) : M.run s (is ++ js) = (M.run last js).map fun rest => (rest.1, outs ++ rest.2) := by
  induction is generalizing s outs with
  | nil =>
    cases Option.some.inj first
    simp
  | cons i is ih =>
    obtain ⟨next, taken, rest⟩ := Option.bind_eq_some_iff.mp first
    obtain ⟨final, finished, joined⟩ := Option.bind_eq_some_iff.mp rest
    cases Option.some.inj joined
    rw [List.cons_append, run_cons taken, ih finished, Option.map_map]
    rfl

theorem run_split {s last : σ} {is js : List ι} {outs : List ο} (run : M.run s (is ++ js) = some (last, outs)) :
    ∃ mid first rest, M.run s is = some (mid, first) ∧ M.run mid js = some (last, rest) ∧ outs = first ++ rest := by
  induction is generalizing s outs with
  | nil => exact ⟨s, [], outs, rfl, run, rfl⟩
  | cons i is ih =>
    obtain ⟨next, taken, later⟩ := Option.bind_eq_some_iff.mp run
    obtain ⟨final, finished, joined⟩ := Option.bind_eq_some_iff.mp later
    cases Option.some.inj joined
    obtain ⟨mid, first, rest, early, late, same⟩ := ih finished
    exact ⟨mid, next.2 :: first, rest, by rw [run_cons taken, early]; rfl, late, by rw [same]; rfl⟩

/-- A state and an output that are known to be there. -/
theorem eq_some_of_answer {answer : Option (σ × ο)} {out : ο} (s : σ) (known : answer.map Prod.snd = some out) :
    answer = some ((answer.map Prod.fst).getD s, out) := by
  obtain ⟨⟨next, out'⟩, rfl, rfl⟩ := Option.map_eq_some_iff.mp known
  rfl

theorem Along.head {P : σ → ι → Prop} {s : σ} {i : ι} {is : List ι}
    (along : M.Along P s (i :: is)) : P s i := along.1

theorem Along.tail {P : σ → ι → Prop} {s next : σ} {i : ι} {out : ο} {is : List ι}
    (along : M.Along P s (i :: is)) (taken : M.step s i = some (next, out)) :
    M.Along P next is := by
  have rest := along.2
  rwa [taken] at rest

theorem along_singleton {P : σ → ι → Prop} {s : σ} {i : ι} (met : P s i) : M.Along P s [i] := by
  refine ⟨met, ?_⟩
  split <;> trivial

theorem Along.append {P : σ → ι → Prop} {s last : σ} {is js : List ι} {outs : List ο}
    (along : M.Along P s is) (first : M.run s is = some (last, outs)) (later : M.Along P last js) :
    M.Along P s (is ++ js) := by
  induction is generalizing s outs with
  | nil =>
    cases Option.some.inj first
    exact later
  | cons i is ih =>
    obtain ⟨next, taken, rest⟩ := Option.bind_eq_some_iff.mp first
    obtain ⟨final, finished, joined⟩ := Option.bind_eq_some_iff.mp rest
    cases Option.some.inj joined
    refine ⟨along.head, ?_⟩
    rw [taken]
    exact ih (along.tail taken) finished

theorem Along.left {P : σ → ι → Prop} {s : σ} {is js : List ι} (along : M.Along P s (is ++ js)) : M.Along P s is := by
  induction is generalizing s with
  | nil => trivial
  | cons i is ih =>
    refine ⟨along.head, ?_⟩
    split
    · rename_i next out taken
      exact ih (along.tail taken)
    · trivial

theorem Along.right {P : σ → ι → Prop} {s mid : σ} {is js : List ι} {outs : List ο} (along : M.Along P s (is ++ js))
    (first : M.run s is = some (mid, outs)) : M.Along P mid js := by
  induction is generalizing s outs with
  | nil =>
    cases Option.some.inj first
    exact along
  | cons i is ih =>
    obtain ⟨next, taken, rest⟩ := Option.bind_eq_some_iff.mp first
    obtain ⟨final, finished, joined⟩ := Option.bind_eq_some_iff.mp rest
    cases Option.some.inj joined
    exact ih (along.tail taken) finished

theorem Along.mono {P Q : σ → ι → Prop} (weaker : ∀ s i, P s i → Q s i) {s : σ} {is : List ι}
    (along : M.Along P s is) : M.Along Q s is := by
  induction is generalizing s with
  | nil => trivial
  | cons i is ih =>
    refine ⟨weaker s i along.head, ?_⟩
    split
    · rename_i next out taken
      exact ih (along.tail taken)
    · trivial

theorem Along.and {P Q : σ → ι → Prop} {s : σ} {is : List ι} (first : M.Along P s is) (second : M.Along Q s is) :
    M.Along (fun s i => P s i ∧ Q s i) s is := by
  induction is generalizing s with
  | nil => trivial
  | cons i is ih =>
    refine ⟨⟨first.head, second.head⟩, ?_⟩
    split
    · rename_i next out taken
      exact ih (first.tail taken) (second.tail taken)
    · trivial

theorem along_trivial (M : Machine σ ι ο) (s : σ) (is : List ι) : M.Along (fun _ _ => True) s is := by
  induction is generalizing s with
  | nil => trivial
  | cons i is ih =>
    refine ⟨trivial, ?_⟩
    split
    · exact ih _
    · trivial

/-- An invariant that makes every admitted step succeed and holds after it
carries a whole admitted run to its end. -/
theorem run_invariant {P : σ → ι → Prop} {I : σ → Prop}
    (kept : ∀ s i, I s → P s i → ∃ next out, M.step s i = some (next, out) ∧ I next)
    {s : σ} {is : List ι} (holds : I s) (along : M.Along P s is) :
    ∃ last outs, M.run s is = some (last, outs) ∧ I last := by
  induction is generalizing s with
  | nil => exact ⟨s, [], rfl, holds⟩
  | cons i is ih =>
    obtain ⟨next, out, taken, after⟩ := kept s i holds along.head
    obtain ⟨last, outs, rest, final⟩ := ih after (along.tail taken)
    exact ⟨last, out :: outs, by rw [run_cons taken, rest]; rfl, final⟩

/-- An invariant that every admitted step that succeeds keeps holds at the end of every admitted run. -/
theorem run_kept {P : σ → ι → Prop} {I : σ → Prop} (kept : ∀ s i next out, I s → P s i → M.step s i = some (next, out) → I next)
    {s last : σ} {is : List ι} {outs : List ο} (holds : I s) (along : M.Along P s is) (run : M.run s is = some (last, outs)) :
    I last := by
  induction is generalizing s outs with
  | nil =>
    cases Option.some.inj run
    exact holds
  | cons i is ih =>
    obtain ⟨next, taken, rest⟩ := Option.bind_eq_some_iff.mp run
    obtain ⟨final, finished, joined⟩ := Option.bind_eq_some_iff.mp rest
    cases Option.some.inj joined
    exact ih (kept s i next.1 next.2 holds along.head taken) (along.tail taken) finished

/-- What an invariant implies for each input holds along the run. -/
theorem along_of_kept {P Q : σ → ι → Prop} {I : σ → Prop} (kept : ∀ s i next out, I s → P s i → M.step s i = some (next, out) → I next)
    (met : ∀ s i, I s → P s i → Q s i) {s : σ} {is : List ι} (holds : I s) (along : M.Along P s is) : M.Along Q s is := by
  induction is generalizing s with
  | nil => trivial
  | cons i is ih =>
    refine ⟨met s i holds along.head, ?_⟩
    split
    · rename_i next out taken
      exact ih (kept s i next out holds along.head taken) (along.tail taken)
    · trivial

/-- Along a run that succeeds two properties of the steps come to the same when they do for each step that succeeds. -/
theorem along_congr_of_run {P Q : σ → ι → Prop} {K : σ → Prop}
    (kept : ∀ s i next out, K s → M.step s i = some (next, out) → K next ∧ (P s i ↔ Q s i)) {s last : σ} {is : List ι} {outs : List ο}
    (known : K s) (run : M.run s is = some (last, outs)) : M.Along P s is ↔ M.Along Q s is := by
  induction is generalizing s outs with
  | nil => exact Iff.rfl
  | cons i is ih =>
    obtain ⟨⟨next, out⟩, taken, rest⟩ := Option.bind_eq_some_iff.mp run
    obtain ⟨⟨final, others⟩, finished, same⟩ := Option.bind_eq_some_iff.mp rest
    cases Option.some.inj same
    obtain ⟨after, exact⟩ := kept s i next out known taken
    rw [Along, Along, taken]
    exact and_congr exact (ih after finished)

/-- `I` holds in every state that the run reaches. -/
def Throughout (M : Machine σ ι ο) (I : σ → Prop) (s : σ) (is : List ι) : Prop :=
  ∀ first rest last outs, is = first ++ rest → M.run s first = some (last, outs) → I last

theorem Throughout.start {I : σ → Prop} {s : σ} {is : List ι} (all : M.Throughout I s is) : I s := all [] is s [] rfl rfl

theorem Throughout.tail {I : σ → Prop} {s next : σ} {i : ι} {is : List ι} {out : ο} (all : M.Throughout I s (i :: is))
    (taken : M.step s i = some (next, out)) : M.Throughout I next is := by
  intro first rest last outs split run
  exact all (i :: first) rest last (out :: outs) (by rw [split]; rfl) (by rw [run_cons taken, run]; rfl)

theorem Throughout.cons {I : σ → Prop} {s next : σ} {i : ι} {is : List ι} {out : ο} (here : I s) (taken : M.step s i = some (next, out))
    (onward : M.Throughout I next is) : M.Throughout I s (i :: is) := by
  intro first rest last outs split run
  cases first with
  | nil =>
    cases Option.some.inj run
    exact here
  | cons j first =>
    obtain ⟨rfl, others⟩ := List.cons.inj split
    obtain ⟨later, finished, joined⟩ := Option.bind_eq_some_iff.mp run
    obtain ⟨final, reached, same⟩ := Option.bind_eq_some_iff.mp joined
    cases Option.some.inj same
    cases Option.some.inj (taken.symm.trans finished)
    exact onward first rest final.1 final.2 others reached

theorem throughout_nil {I : σ → Prop} {s : σ} (here : I s) : M.Throughout I s [] := by
  intro first rest last outs split run
  obtain ⟨rfl, -⟩ := List.append_eq_nil_iff.mp split.symm
  cases Option.some.inj run
  exact here

/-- After a step that keeps `I` exactly if its input meets `P`. -/
theorem throughout_cons_iff {P : σ → ι → Prop} {I : σ → Prop} {s next : σ} {i : ι} {is : List ι} {out : ο} (here : I s)
    (taken : M.step s i = some (next, out)) (exact : I next ↔ P s i) (onward : I next → (M.Throughout I next is ↔ M.Along P next is)) :
    M.Throughout I s (i :: is) ↔ M.Along P s (i :: is) := by
  constructor
  · intro all
    have after := all.tail taken
    refine ⟨exact.mp after.start, ?_⟩
    rw [taken]
    exact (onward after.start).mp after
  · intro along
    have after := exact.mpr along.head
    exact .cons here taken ((onward after).mpr (along.tail taken))

/-- When the next state has `I` exactly if the input meets `P`, a run stays in `I` exactly if all its inputs meet `P`. -/
theorem throughout_iff_along {P : σ → ι → Prop} {I K : σ → Prop}
    (kept : ∀ s i, K s → I s → ∃ next out, M.step s i = some (next, out) ∧ K next ∧ (I next ↔ P s i))
    {s : σ} {is : List ι} (known : K s) (holds : I s) : M.Throughout I s is ↔ M.Along P s is := by
  induction is generalizing s with
  | nil => exact iff_of_true (throughout_nil holds) trivial
  | cons i is ih =>
    obtain ⟨next, out, taken, known, exact⟩ := kept s i known holds
    exact throughout_cons_iff holds taken exact (ih known)

/-- The same for a run that succeeds, with what the inputs are known to meet. -/
theorem throughout_iff_along_of_admitted {P Q : σ → ι → Prop} {I K : σ → Prop}
    (kept : ∀ s i next out, K s → I s → Q s i → M.step s i = some (next, out) → K next ∧ (I next ↔ P s i))
    {s last : σ} {is : List ι} {outs : List ο} (run : M.run s is = some (last, outs)) (admitted : M.Along Q s is) (known : K s)
    (holds : I s) : M.Throughout I s is ↔ M.Along P s is := by
  induction is generalizing s outs with
  | nil => exact iff_of_true (throughout_nil holds) trivial
  | cons i is ih =>
    obtain ⟨⟨next, out⟩, taken, rest⟩ := Option.bind_eq_some_iff.mp run
    obtain ⟨⟨final, others⟩, finished, same⟩ := Option.bind_eq_some_iff.mp rest
    cases Option.some.inj same
    obtain ⟨known, exact⟩ := kept s i next out known holds admitted.head taken
    exact throughout_cons_iff holds taken exact (ih finished (admitted.tail taken) known)

/-- The same for a run that succeeds. -/
theorem throughout_iff_along_of_run {P : σ → ι → Prop} {I K : σ → Prop}
    (kept : ∀ s i next out, K s → I s → M.step s i = some (next, out) → K next ∧ (I next ↔ P s i))
    {s last : σ} {is : List ι} {outs : List ο} (run : M.run s is = some (last, outs)) (known : K s) (holds : I s) :
    M.Throughout I s is ↔ M.Along P s is :=
  throughout_iff_along_of_admitted (fun s i next out known holds _ taken => kept s i next out known holds taken) run
    (along_trivial M s is) known holds

theorem run_length {s last : σ} {is : List ι} {outs : List ο} (run : M.run s is = some (last, outs)) : outs.length = is.length := by
  induction is generalizing s outs with
  | nil =>
    cases Option.some.inj run
    rfl
  | cons i is ih =>
    obtain ⟨next, taken, rest⟩ := Option.bind_eq_some_iff.mp run
    obtain ⟨final, finished, joined⟩ := Option.bind_eq_some_iff.mp rest
    cases Option.some.inj joined
    exact congrArg (· + 1) (ih finished)

/-- An invariant of the state and of the answers so far that every admitted step that succeeds keeps. -/
theorem run_kept_logged_along {P : σ → ι → Prop} {I : σ → List ο → Prop}
    (kept : ∀ s outs i next out, I s outs → P s i → M.step s i = some (next, out) → I next (outs ++ [out])) {s last : σ} {is : List ι}
    {outs more : List ο} (holds : I s outs) (along : M.Along P s is) (run : M.run s is = some (last, more)) :
    I last (outs ++ more) := by
  induction is generalizing s outs more with
  | nil =>
    cases Option.some.inj run
    rwa [List.append_nil]
  | cons i is ih =>
    obtain ⟨next, taken, rest⟩ := Option.bind_eq_some_iff.mp run
    obtain ⟨final, finished, joined⟩ := Option.bind_eq_some_iff.mp rest
    cases Option.some.inj joined
    have onward := ih (kept s outs i next.1 next.2 holds along.head taken) (along.tail taken) finished
    rwa [List.append_assoc, List.singleton_append] at onward

/-- An invariant of the state and of the answers so far holds after every run that succeeds. -/
theorem run_kept_logged {I : σ → List ο → Prop}
    (kept : ∀ s outs i next out, I s outs → M.step s i = some (next, out) → I next (outs ++ [out])) {s last : σ} {is : List ι}
    {outs more : List ο} (holds : I s outs) (run : M.run s is = some (last, more)) : I last (outs ++ more) :=
  run_kept_logged_along (fun s outs i next out holds _ taken => kept s outs i next out holds taken) holds (along_trivial M s is) run

/-- An invariant of the state and of the answers so far. -/
theorem run_logged {P : σ → ι → Prop} {I : σ → List ο → Prop}
    (kept : ∀ s outs i, I s outs → P s i → ∃ next out, M.step s i = some (next, out) ∧ I next (outs ++ [out]))
    {s : σ} {outs : List ο} {is : List ι} (holds : I s outs) (along : M.Along P s is) :
    ∃ last more, M.run s is = some (last, more) ∧ I last (outs ++ more) := by
  induction is generalizing s outs with
  | nil => exact ⟨s, [], rfl, by rwa [List.append_nil]⟩
  | cons i is ih =>
    obtain ⟨next, out, taken, after⟩ := kept s outs i holds along.head
    obtain ⟨last, more, rest, final⟩ := ih after (along.tail taken)
    refine ⟨last, out :: more, by rw [run_cons taken, rest]; rfl, ?_⟩
    rwa [List.append_assoc, List.singleton_append] at final

/-- An invariant of the state and of the inputs so far. -/
theorem run_inputs {P : σ → ι → Prop} {I : σ → List ι → Prop}
    (kept : ∀ s seen i, I s seen → P s i → ∃ next out, M.step s i = some (next, out) ∧ I next (seen ++ [i]))
    {s : σ} {seen is : List ι} (holds : I s seen) (along : M.Along P s is) :
    ∃ last outs, M.run s is = some (last, outs) ∧ I last (seen ++ is) := by
  induction is generalizing s seen with
  | nil => exact ⟨s, [], rfl, by rwa [List.append_nil]⟩
  | cons i is ih =>
    obtain ⟨next, out, taken, after⟩ := kept s seen i holds along.head
    obtain ⟨last, outs, rest, final⟩ := ih after (along.tail taken)
    refine ⟨last, out :: outs, by rw [run_cons taken, rest]; rfl, ?_⟩
    rwa [List.append_assoc, List.singleton_append] at final

/-- The same with a value beside the state that the inputs alone determine. -/
theorem run_tracked {γ : Type*} {track : γ → ι → γ} {P : σ → ι → Prop} {I : σ → γ → Prop}
    (kept : ∀ s g i, I s g → P s i → ∃ next out, M.step s i = some (next, out) ∧ I next (track g i))
    {s : σ} {g : γ} {is : List ι} (holds : I s g) (along : M.Along P s is) :
    ∃ last outs, M.run s is = some (last, outs) ∧ I last (is.foldl track g) := by
  induction is generalizing s g with
  | nil => exact ⟨s, [], rfl, holds⟩
  | cons i is ih =>
    obtain ⟨next, out, taken, after⟩ := kept s g i holds along.head
    obtain ⟨last, outs, rest, final⟩ := ih after (along.tail taken)
    exact ⟨last, out :: outs, by rw [run_cons taken, rest]; rfl, final⟩

/-- A forward simulation: related states answer every admitted input alike
and stay related, so two whole runs give the same answers. -/
theorem run_simulation {A : Machine α ι ο} {P : σ → ι → Prop} {Q : α → ι → Prop} {R : σ → α → Prop}
    (simulates : ∀ s a i, R s a → P s i → Q a i → ∃ next anext out,
      M.step s i = some (next, out) ∧ A.step a i = some (anext, out) ∧ R next anext)
    {s : σ} {a : α} {is : List ι} (related : R s a) (along : M.Along P s is)
    (admitted : A.Along Q a is) :
    ∃ last alast outs, M.run s is = some (last, outs) ∧ A.run a is = some (alast, outs) ∧
      R last alast := by
  induction is generalizing s a with
  | nil => exact ⟨s, a, [], rfl, rfl, related⟩
  | cons i is ih =>
    obtain ⟨next, anext, out, taken, ataken, after⟩ :=
      simulates s a i related along.head admitted.head
    obtain ⟨last, alast, outs, rest, arest, final⟩ :=
      ih after (along.tail taken) (admitted.tail ataken)
    exact ⟨last, alast, out :: outs, by rw [run_cons taken, rest]; rfl,
      by rw [run_cons ataken, arest]; rfl, final⟩

section Comap


variable {κ : Type y} (f : κ → ι)

/-- The component under inputs that say more than it asks for. -/
def comap (M : Machine σ ι ο) : Machine σ κ ο := ⟨fun s k => M.step s (f k)⟩

theorem run_comap (M : Machine σ ι ο) (s : σ) (ks : List κ) : (M.comap f).run s ks = M.run s (ks.map f) := by
  induction ks generalizing s with
  | nil => rfl
  | cons k ks ih => simp only [run, comap, List.map_cons, ← ih]

theorem along_comap {P : σ → ι → Prop} {s : σ} {ks : List κ} (along : M.Along P s (ks.map f)) :
    (M.comap f).Along (fun s k => P s (f k)) s ks := by
  induction ks generalizing s with
  | nil => trivial
  | cons k ks ih =>
    refine ⟨along.head, ?_⟩
    split
    · rename_i next out taken
      exact ih (along.tail taken)
    · trivial

end Comap

theorem along_of_forall {P : ι → Prop} {s : σ} {is : List ι} (all : ∀ i ∈ is, P i) : M.Along (fun _ => P) s is := by
  induction is generalizing s with
  | nil => trivial
  | cons i is ih =>
    obtain ⟨first, rest⟩ := List.forall_mem_cons.mp all
    refine ⟨first, ?_⟩
    split
    · exact ih rest
    · trivial

/-- Along a run that succeeds every input is reached. -/
theorem along_iff_forall_of_run {P : ι → Prop} {s last : σ} {is : List ι} {outs : List ο} (run : M.run s is = some (last, outs)) :
    M.Along (fun _ => P) s is ↔ ∀ i ∈ is, P i := by
  refine ⟨fun along => ?_, along_of_forall⟩
  induction is generalizing s outs with
  | nil => exact List.forall_mem_nil _
  | cons i is ih =>
    obtain ⟨next, taken, rest⟩ := Option.bind_eq_some_iff.mp run
    obtain ⟨final, finished, joined⟩ := Option.bind_eq_some_iff.mp rest
    cases Option.some.inj joined
    exact List.forall_mem_cons.mpr ⟨along.head, ih finished (along.tail taken)⟩

end Machine

/-- A rule for the order of marks: which mark may come next, and what is remembered of it. -/
structure Monitor (τ : Type u) (μ : Type v) where
  allows : τ → μ → Prop
  next : τ → μ → τ

namespace Monitor

variable {τ : Type u} {μ : Type v} {m : Monitor τ μ}

/-- Each of the marks may come where it comes. -/
def Accepts (m : Monitor τ μ) : τ → List μ → Prop
  | _, [] => True
  | t, mark :: rest => m.allows t mark ∧ m.Accepts (m.next t mark) rest

/-- What is remembered after the marks. -/
def after (m : Monitor τ μ) (t : τ) (marks : List μ) : τ := marks.foldl m.next t

theorem accepts_append {t : τ} {first second : List μ} :
    m.Accepts t (first ++ second) ↔ m.Accepts t first ∧ m.Accepts (m.after t first) second := by
  induction first generalizing t with
  | nil => exact (and_iff_right trivial).symm
  | cons mark rest ih =>
    rw [List.cons_append, Accepts, Accepts, ih, and_assoc]
    rfl

end Monitor

namespace Machine

variable {σ : Type w} {ι : Type x} {ο : Type y} {τ : Type u} {μ : Type v} {M : Machine σ ι ο}

/-- The marks that the steps of a run leave. -/
def history (M : Machine σ ι ο) (marks : σ → ι → List μ) : σ → List ι → List μ
  | _, [] => []
  | s, i :: is =>
    match M.step s i with
    | some (next, _) => marks s i ++ M.history marks next is
    | none => []

/-- A run leaves accepted marks when each step does, from the states that are related to what is remembered. -/
theorem accepts_history {m : Monitor τ μ} {marks : σ → ι → List μ} {P : σ → ι → Prop} {R : σ → τ → Prop}
    (kept : ∀ s t i next out, R s t → P s i → M.step s i = some (next, out) → m.Accepts t (marks s i) ∧ R next (m.after t (marks s i)))
    {s : σ} {t : τ} {is : List ι} (related : R s t) (along : M.Along P s is) : m.Accepts t (M.history marks s is) := by
  induction is generalizing s t with
  | nil => trivial
  | cons i is ih =>
    rw [history]
    cases taken : M.step s i with
    | none => trivial
    | some result =>
      obtain ⟨accepted, after⟩ := kept s t i result.1 result.2 related along.head taken
      exact Monitor.accepts_append.mpr ⟨accepted, ih after (along.tail taken)⟩

end Machine
