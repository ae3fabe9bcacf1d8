import Ns2.Queue.DWRRAccounts

namespace Ns2.DWRR

/-- A run in single steps: each call of `enque`, and each turn of the loop of
`deque`. -/
inductive Event
  | enque (pkt : Packet)
  | visit
deriving DecidableEq

def event (s : DWRR) : Event → Option (DWRR × Option Visit)
  | .enque pkt => (s.enque pkt).map fun next => (next.1, none)
  | .visit => s.visit.map fun next => (next.1, some next.2)

def events : Machine DWRR Event (Option Visit) := ⟨event⟩

def Event.Proper : Event → Prop
  | .enque pkt => DWRR.Proper pkt
  | .visit => True

instance : ∀ e : Event, Decidable e.Proper
  | .enque pkt => inferInstanceAs (Decidable (DWRR.Proper pkt))
  | .visit => isTrue trivial

section Table

variable {s : DWRR} {ring : List ℕ} {P P' w : ℤ}

/-- The weight that the table points at. -/
def Points (s : DWRR) (P : ℤ) : Prop := s.weights[s.cerprique]? = some P

theorem descending {l : List ℤ} (sorted : l.Pairwise (· > ·)) {i j : ℕ} {a b : ℤ} (first : l[i]? = some a)
    (second : l[j]? = some b) : (i < j ↔ b < a) ∧ (i = j ↔ a = b) := by
  obtain ⟨inI, rfl⟩ := List.getElem?_eq_some_iff.mp first
  obtain ⟨inJ, rfl⟩ := List.getElem?_eq_some_iff.mp second
  have order := List.pairwise_iff_getElem.mp sorted
  rcases Nat.lt_trichotomy i j with less | equal | more
  · have drop := order i j inI inJ less
    omega
  · subst equal
    simp
  · have drop := order j i inJ inI more
    omega

theorem Ranked.index (ranked : Ranked s ring) {i : ℕ} (member : i ∈ ring) :
    ∃ j < ring.length, s.weights[j]? = some (s.dwrr i).weight := by
  have inside : (s.dwrr i).weight ∈ s.weights := ranked.perm.symm.subset (List.mem_map_of_mem member)
  obtain ⟨j, bound, same⟩ := List.mem_iff_getElem.mp inside
  rw [ranked.perm.length_eq, List.length_map] at bound
  exact ⟨j, bound, by rw [← same]; exact List.getElem?_eq_getElem _⟩

theorem Ranked.points (ranked : Ranked s ring) : ∃ P, Points s P := by
  have bound := ranked.cerprique
  have length := ranked.perm.length_eq
  rw [List.length_map] at length
  exact ⟨_, List.getElem?_eq_getElem (length ▸ bound)⟩

/-- At the start of a round the largest weight is next. -/
theorem Ranked.top (ranked : Ranked s ring) (start : s.cerprique = 0) (points : Points s P) {i : ℕ} (member : i ∈ ring) :
    (s.dwrr i).weight ≤ P := by
  obtain ⟨j, _, entry⟩ := ranked.index member
  have order := descending ranked.sorted points entry
  omega

/-- The next weight of the table after `P`, or the largest one after the smallest. -/
theorem Ranked.advance {next : DWRR} (ranked : Ranked s ring) (flwcnt : s.flwcnt = ring.length) (points : Points s P)
    (weights : next.weights = s.weights)
    (cerprique : next.cerprique = if s.cerprique + 1 ≥ s.flwcnt then 0 else s.cerprique + 1) (points' : Points next P') :
    (P' < P ∧ ∀ i ∈ ring, (s.dwrr i).weight < P → (s.dwrr i).weight ≤ P') ∨
      ∀ i ∈ ring, P ≤ (s.dwrr i).weight ∧ (s.dwrr i).weight ≤ P' := by
  have bound := ranked.cerprique
  unfold Points at points'
  rw [weights, cerprique] at points'
  by_cases wraps : ((s.cerprique + 1 : ℕ) : ℤ) ≥ s.flwcnt
  · have last : ((s.cerprique : ℤ) + 1 ≥ s.flwcnt) := by exact_mod_cast wraps
    rw [if_pos last] at points'
    refine Or.inr fun i member => ?_
    obtain ⟨j, inside, entry⟩ := ranked.index member
    have below := descending ranked.sorted points entry
    have above := descending ranked.sorted points' entry
    omega
  · have early : ¬ ((s.cerprique : ℤ) + 1 ≥ s.flwcnt) := by exact_mod_cast wraps
    rw [if_neg early] at points'
    refine Or.inl ⟨?_, fun i member less => ?_⟩
    · have order := descending ranked.sorted points points'
      omega
    · obtain ⟨j, inside, entry⟩ := ranked.index member
      have below := descending ranked.sorted points entry
      have above := descending ranked.sorted points' entry
      omega

end Table

/-- Flow `f` is granted a quantum in `s`, the events `mid` follow, in which it is granted none, and then it is
granted one again. -/
structure Round (s : DWRR) (f : ℕ) (mid : List Event) (visits : List (Option Visit)) : Prop where
  run : ∃ v w, (events.run s (.visit :: (mid ++ [.visit]))).map Prod.snd = some (some v :: (visits ++ [some w])) ∧
    (v.flow = f ∧ v.granted = true) ∧ w.flow = f ∧ w.granted = true
  apart : ∀ visit ∈ visits, ∀ v ∈ visit, ¬ (v.flow = f ∧ v.granted = true)

/-- Flow `g` holds packets before each of the events `mid` and before the visit after them. -/
def Stays (g : ℕ) (s : DWRR) (mid : List Event) : Prop := events.Along (fun s _ => s.queues g ≠ []) s (mid ++ [.visit])

theorem Stays.start {g : ℕ} {first : DWRR} {mid : List Event} (stays : Stays g first mid) : first.queues g ≠ [] := by
  unfold Stays at stays
  cases mid <;> exact stays.head

/-- The event is not an arrival at a flow that is empty. -/
def Event.Expected (s : DWRR) : Event → Prop
  | .enque pkt => s.queues (which s.buckets pkt) ≠ []
  | .visit => True

instance Event.decidableExpected (s : DWRR) : ∀ e : Event, Decidable (e.Expected s)
  | .enque pkt => inferInstanceAs (Decidable (s.queues (which s.buckets pkt) ≠ []))
  | .visit => isTrue trivial

/-- In the middle of a round no flow becomes active or empty. -/
def Steady (s : DWRR) (e : Event) : Prop :=
  s.cerprique ≠ 0 → e.Expected s ∧
    ∀ next ∈ s.event e, ∀ i < (s.buckets : ℕ), s.queues i ≠ [] → next.1.queues i ≠ []

instance (s : DWRR) (e : Event) : Decidable (Steady s e) := inferInstanceAs (Decidable (_ → _))

section Rounds

variable {buckets : ℕ+} {blimit : ℕ} {s next : DWRR} {ring : List ℕ} {l : Ledger Packet} {f g : ℕ} {seen : Prop}

/-- How far the round has come between two grants to `f`: when the turn of `f` is over, `g` has been seen, or it is
still ahead of the next grant to `f`. -/
structure Phase (f g : ℕ) (seen : Prop) (s : DWRR) (P : ℤ) : Prop where
  points : Points s P
  held : (s.dwrr f).turn = true → (s.dwrr f).weight ≤ P
  after : (s.dwrr f).turn = false → P < (s.dwrr f).weight →
    seen ∨ (s.dwrr f).weight < (s.dwrr g).weight ∨ (s.dwrr g).weight ≤ P
  before : (s.dwrr f).turn = false → (s.dwrr f).weight ≤ P →
    seen ∨ (s.dwrr f).weight < (s.dwrr g).weight ∧ (s.dwrr g).weight ≤ P

theorem Circle.weight_injective (circle : Circle s ring) {i j : ℕ} (inI : i ∈ ring) (inJ : j ∈ ring)
    (same : (s.dwrr i).weight = (s.dwrr j).weight) : i = j := by
  have own := (circle.own i inI).2
  rw [same, (circle.own j inJ).2] at own
  exact own.symm

/-- The table is made anew at the start of a round. -/
theorem Phase.restart {P : ℤ} (phase : Phase f g seen s P) (sound : Sound s ring) {ring' : List ℕ} (sound' : Sound next ring')
    (start : s.cerprique = 0) (restarted : Restarted next) (inF : s.queues f ≠ []) (inG : s.queues g ≠ [])
    (inF' : next.queues f ≠ []) (inG' : next.queues g ≠ []) (turn : (next.dwrr f).turn = (s.dwrr f).turn)
    (weightF : (next.dwrr f).weight = (s.dwrr f).weight) (weightG : (next.dwrr g).weight = (s.dwrr g).weight) :
    ∃ P', Phase f g seen next P' := by
  have atF := (sound.circle.member f).mpr inF
  have atF' := (sound'.circle.member f).mpr inF'
  have atG' := (sound'.circle.member g).mpr inG'
  have ranked := sound.ranked (List.ne_nil_of_mem atF)
  have ranked' := sound'.ranked (List.ne_nil_of_mem atF')
  have start' : next.cerprique = 0 := restarted.resolve_right fun none => inF' (none f)
  obtain ⟨P', points'⟩ := ranked'.points
  have topF := ranked.top start phase.points atF
  have topF' := ranked'.top start' points' atF'
  have topG' := ranked'.top start' points' atG'
  refine ⟨P', points', fun _ => topF', fun beyond below => ?_, fun beyond _ => ?_⟩
  · omega
  · rw [turn] at beyond
    refine (phase.before beyond topF).imp_right fun ahead => ⟨?_, topG'⟩
    omega

theorem Phase.enque {P : ℤ} (phase : Phase f g seen s P) (holds : Holds buckets blimit s ring l) {pkt : Packet}
    (proper : Proper pkt) {v : Option Visit} (taken : s.event (.enque pkt) = some (next, v))
    (steady : Steady s (.enque pkt)) (inF : s.queues f ≠ []) (inG : s.queues g ≠ []) (inF' : next.queues f ≠ [])
    (inG' : next.queues g ≠ []) : ∃ P', Phase f g seen next P' := by
  have accounts := holds.accounts
  rw [← holds.size] at accounts
  obtain ⟨mid, dropped, ring', enqued, sound', _, _, frame, table⟩ := holds.sound.enque accounts proper
  have same : (mid, (none : Option Visit)) = (next, v) := by simpa [event, enqued] using taken
  cases same
  rcases table with calm | ⟨restarted, moved⟩
  · refine ⟨P, ?_, ?_, ?_, ?_⟩
    · rw [Points, calm.1, calm.2]
      exact phase.points
    · rw [frame.turn, frame.weight f inF]
      exact phase.held
    · rw [frame.turn, frame.weight f inF, frame.weight g inG]
      exact phase.after
    · rw [frame.turn, frame.weight f inF, frame.weight g inG]
      exact phase.before
  · have start : s.cerprique = 0 := by
      by_contra inside
      obtain ⟨active, kept⟩ := steady inside
      rcases moved with fresh | ⟨i, was, gone⟩
      · exact active fresh
      · exact kept _ taken i (holds.sound.counts.inside i was) was gone
    exact phase.restart holds.sound sound' start restarted inF inG inF' inG' (frame.turn f) (frame.weight f inF)
      (frame.weight g inG)

theorem Phase.mono {P : ℤ} {seen' : Prop} (phase : Phase f g seen s P) (more : seen → seen') : Phase f g seen' s P :=
  ⟨phase.points, phase.held, fun beyond below => (phase.after beyond below).imp_left more,
    fun beyond above => (phase.before beyond above).imp_left more⟩

/-- The table after a visit that passes on, seen from the weights of two flows. -/
theorem Visited.moved {P P' : ℤ} {v : Visit} (visited : Visited s next v) (sound : Sound s ring) (silent : v.pkt = none)
    (points : Points s P) (points' : Points next P') (atF : f ∈ ring) (atG : g ∈ ring) :
    P' < P ∧ ((s.dwrr f).weight < P → (s.dwrr f).weight ≤ P') ∧ ((s.dwrr g).weight < P → (s.dwrr g).weight ≤ P') ∨
      P ≤ (s.dwrr f).weight ∧ (s.dwrr f).weight ≤ P' ∧ P ≤ (s.dwrr g).weight ∧ (s.dwrr g).weight ≤ P' := by
  obtain ⟨_, _, weights, cerprique⟩ := visited.passed silent
  rcases (sound.ranked (List.ne_nil_of_mem atF)).advance sound.circle.flwcnt points weights cerprique points' with
    ⟨less, later⟩ | wraps
  · exact Or.inl ⟨less, later f atF, later g atG⟩
  · exact Or.inr ⟨(wraps f atF).1, (wraps f atF).2, wraps g atG⟩

/-- After a visit to `f` itself the round starts. -/
theorem Visited.starts {P : ℤ} {v : Visit} (visited : Visited s next v) (sound : Sound s ring) {ring' : List ℕ}
    (sound' : Sound next ring') (apart : f ≠ g) (points : Points s P) (own : v.flow = f) (inG : s.queues g ≠ [])
    (inF' : next.queues f ≠ []) : ∃ P', Phase f g seen next P' := by
  subst own
  have atF := (sound.circle.member v.flow).mpr visited.active
  have atG := (sound.circle.member g).mpr inG
  have chosen := visited.chosen
  rw [points] at chosen
  have atP : (s.dwrr v.flow).weight = P := (Option.some.inj chosen).symm
  cases returned : v.pkt with
  | none =>
    have beyond := (visited.passed returned).2.1
    have different : (s.dwrr v.flow).weight ≠ (s.dwrr g).weight := fun same =>
      apart (sound.circle.weight_injective atF atG same)
    obtain ⟨P', points'⟩ := (sound'.ranked (List.ne_nil_of_mem ((sound'.circle.member v.flow).mpr inF'))).points
    have moved := visited.moved sound returned points points' atF atG
    refine ⟨P', points', fun turn => absurd (beyond.symm.trans turn) (by simp), fun _ below => Or.inr ?_, fun _ above => Or.inr ?_⟩
    · rw [visited.weight] at below ⊢
      rw [visited.weight]
      omega
    · rw [visited.weight] at above ⊢
      rw [visited.weight]
      omega
  | some pkt =>
    obtain ⟨rest, queue, queues, calm, _⟩ := visited.sent pkt returned
    have left : rest ≠ [] := by
      rw [queues, Function.update_self] at inF'
      exact inF'
    obtain ⟨same, turned⟩ := calm left
    refine ⟨P, ?_, fun _ => ?_, fun beyond => absurd (turned.symm.trans beyond) (by simp),
      fun beyond => absurd (turned.symm.trans beyond) (by simp)⟩
    · rw [Points, same.1, same.2]
      exact points
    · rw [visited.weight, atP]

/-- A visit that serves another flow keeps the table, or makes it anew. -/
theorem Phase.serve {P : ℤ} (phase : Phase f g seen s P) (sound : Sound s ring) {ring' : List ℕ} (sound' : Sound next ring')
    {v : Visit} (visited : Visited s next v) {pkt : Packet} (returned : v.pkt = some pkt) {taken : Option Visit}
    (made : s.event .visit = some (next, taken)) (steady : Steady s .visit) (other : f ≠ v.flow) (inF : s.queues f ≠ [])
    (inG : s.queues g ≠ []) (inF' : next.queues f ≠ []) (inG' : next.queues g ≠ []) : ∃ P', Phase f g seen next P' := by
  obtain ⟨rest, queue, queues, calm, restart⟩ := visited.sent pkt returned
  by_cases empty : rest = []
  · have gone : next.queues v.flow = [] := by rw [queues, Function.update_self, empty]
    have start : s.cerprique = 0 := by
      by_contra inside
      exact (steady inside).2 _ made v.flow (sound.counts.inside _ visited.active) visited.active gone
    exact phase.restart sound sound' start (restart empty) inF inG inF' inG' (visited.turn f other) (visited.weight f)
      (visited.weight g)
  · obtain ⟨same, _⟩ := calm empty
    refine ⟨P, ?_, ?_, ?_, ?_⟩
    · rw [Points, same.1, same.2]
      exact phase.points
    · rw [visited.turn f other, visited.weight]
      exact phase.held
    · rw [visited.turn f other, visited.weight, visited.weight]
      exact phase.after
    · rw [visited.turn f other, visited.weight, visited.weight]
      exact phase.before

/-- A visit that ends the turn of another flow moves the table on. -/
theorem Phase.pass {P : ℤ} (phase : Phase f g seen s P) (sound : Sound s ring) {ring' : List ℕ} (sound' : Sound next ring')
    {v : Visit} (visited : Visited s next v) (silent : v.pkt = none) (other : f ≠ v.flow)
    (inF : s.queues f ≠ []) (inG : s.queues g ≠ []) : ∃ P', Phase f g (seen ∨ v.flow = g) next P' := by
  have atF := (sound.circle.member f).mpr inF
  have atG := (sound.circle.member g).mpr inG
  have atV := (sound.circle.member v.flow).mpr visited.active
  have atF' : f ∈ ring' := (sound'.circle.member f).mpr ((visited.passed silent).1 ▸ inF)
  have chosen := visited.chosen
  rw [phase.points] at chosen
  have atP : (s.dwrr v.flow).weight = P := (Option.some.inj chosen).symm
  have notP : (s.dwrr f).weight ≠ P := fun same => other (sound.circle.weight_injective atF atV (same.trans atP.symm))
  have isG : (s.dwrr g).weight = P → v.flow = g := fun same => sound.circle.weight_injective atV atG (atP.trans same.symm)
  obtain ⟨P', points'⟩ := (sound'.ranked (List.ne_nil_of_mem atF')).points
  have moved := visited.moved sound silent phase.points points' atF atG
  have turned := visited.turn f other
  by_cases sees : v.flow = g
  · refine ⟨P', points', fun turn => ?_, fun _ _ => Or.inl (Or.inr sees), fun _ _ => Or.inl (Or.inr sees)⟩
    have high := phase.held (turned.symm.trans turn)
    rw [visited.weight]
    omega
  · have notG : (s.dwrr g).weight ≠ P := mt isG sees
    refine ⟨P', points', fun turn => ?_, fun turn below => ?_, fun turn above => ?_⟩
    · have high := phase.held (turned.symm.trans turn)
      rw [visited.weight]
      omega
    · rw [visited.weight] at below ⊢
      rw [visited.weight]
      rcases lt_or_ge P (s.dwrr f).weight with low | high
      · rcases phase.after (turned.symm.trans turn) low with was | ahead
        · exact Or.inl (Or.inl was)
        · exact Or.inr (by omega)
      · omega
    · rw [visited.weight] at above ⊢
      rw [visited.weight]
      rcases lt_or_ge P (s.dwrr f).weight with low | high
      · rcases phase.after (turned.symm.trans turn) low with was | ahead
        · exact Or.inl (Or.inl was)
        · exact Or.inr (by omega)
      · rcases phase.before (turned.symm.trans turn) high with was | ahead
        · exact Or.inl (Or.inl was)
        · exact Or.inr (by omega)

theorem Phase.visit {P : ℤ} (phase : Phase f g seen s P) (sound : Sound s ring) {ring' : List ℕ} (sound' : Sound next ring')
    (apart : f ≠ g) {v : Visit} (visited : Visited s next v) {taken : Option Visit}
    (made : s.event .visit = some (next, taken)) (steady : Steady s .visit) (inF : s.queues f ≠ [])
    (inG : s.queues g ≠ []) (inF' : next.queues f ≠ []) (inG' : next.queues g ≠ []) :
    ∃ P', Phase f g (seen ∨ v.flow = g) next P' := by
  by_cases own : v.flow = f
  · exact visited.starts sound sound' apart phase.points own inG inF'
  · cases returned : v.pkt with
    | none => exact phase.pass sound sound' visited returned (Ne.symm own) inF inG
    | some pkt =>
      obtain ⟨P', after⟩ := phase.serve sound sound' visited returned made steady (Ne.symm own) inF inG inF' inG'
      exact ⟨P', after.mono Or.inl⟩

theorem Holds.event (holds : Holds buckets blimit s ring l) (e : Event) (proper : e.Proper) (some : ring ≠ []) :
    ∃ next v ring' l', s.event e = Option.some (next, v) ∧ Holds buckets blimit next ring' l' ∧
      ∀ visit, v = Option.some visit → e = .visit ∧ Visited s next visit := by
  cases e with
  | enque pkt =>
    obtain ⟨next, dropped, ring', taken, after⟩ := holds.enque proper
    exact ⟨next, none, ring', _, by simp [DWRR.event, taken], after, nofun⟩
  | visit =>
    obtain ⟨next, v, ring', taken, visited, _, after⟩ := holds.visit some
    exact ⟨next, Option.some v, ring', _, by simp [DWRR.event, taken], after, fun _ same =>
      ⟨rfl, Option.some.inj same ▸ visited⟩⟩

/-- A round as far as the events have come. -/
theorem Phase.run {P : ℤ} (phase : Phase f g seen s P) (holds : Holds buckets blimit s ring l) (apart : f ≠ g)
    {mid : List Event} (proper : ∀ e ∈ mid, e.Proper) (steady : events.Along Steady s mid) (staysF : Stays f s mid)
    (staysG : Stays g s mid) {second : DWRR} {visits : List (Option Visit)} (run : events.run s mid = some (second, visits)) :
    ∃ P' ring' l', Holds buckets blimit second ring' l' ∧
      Phase f g (seen ∨ ∃ v, some v ∈ visits ∧ v.flow = g) second P' ∧ second.queues g ≠ [] := by
  induction mid generalizing s ring l visits seen P with
  | nil =>
    cases Option.some.inj run
    exact ⟨P, ring, l, holds, phase.mono Or.inl, staysG.head⟩
  | cons e mid ih =>
    obtain ⟨first, later⟩ := List.forall_mem_cons.mp proper
    have inF : s.queues f ≠ [] := staysF.head
    have inG : s.queues g ≠ [] := staysG.head
    obtain ⟨next, v, ring', l', taken, after, visited⟩ :=
      holds.event e first (List.ne_nil_of_mem ((holds.sound.circle.member f).mpr inF))
    have step : events.step s e = some (next, v) := taken
    rw [Machine.run_cons step] at run
    obtain ⟨rest, finished, joined⟩ := Option.map_eq_some_iff.mp run
    cases joined
    have restF : Stays f next mid := staysF.tail step
    have restG : Stays g next mid := staysG.tail step
    have inF' := restF.start
    have inG' := restG.start
    have moved : ∃ P', Phase f g (seen ∨ ∃ visit, v = some visit ∧ visit.flow = g) next P' := by
      cases e with
      | enque pkt =>
        obtain ⟨P', kept⟩ := phase.enque holds first taken steady.head inF inG inF' inG'
        exact ⟨P', kept.mono Or.inl⟩
      | visit =>
        obtain ⟨mid', visit, made⟩ : ∃ mid' visit, s.visit = some (mid', visit) ∧ v = some visit := by
          obtain ⟨pair, made, same⟩ := Option.map_eq_some_iff.mp taken
          exact ⟨pair.1, pair.2, made, by cases same; rfl⟩
        obtain ⟨P', kept⟩ := phase.visit holds.sound after.sound apart (visited visit made.2).2 taken steady.head inF inG
          inF' inG'
        exact ⟨P', kept.mono (Or.imp_right fun sees => ⟨visit, made.2, sees⟩)⟩
    obtain ⟨P', phase'⟩ := moved
    obtain ⟨P'', ring'', l'', ended, final, inside⟩ := ih phase' after later (steady.tail step) restF restG finished
    refine ⟨P'', ring'', l'', ended, final.mono ?_, inside⟩
    rintro ((was | ⟨visit, same, sees⟩) | ⟨visit, member, sees⟩)
    · exact Or.inl was
    · exact Or.inr ⟨visit, same ▸ List.mem_cons_self, sees⟩
    · exact Or.inr ⟨visit, List.mem_cons_of_mem v member, sees⟩

/-- While no flow becomes active or empty in the middle of a round, a flow that stays backlogged is visited between two
grants to another one. -/
theorem round_robin (buckets : ℕ+) (blimit : ℕ) (calls : List Call) (proper : ∀ call ∈ calls, call.Proper) {outs : List (Outcome Packet)}
    (reached : machine.run (make buckets blimit) calls = some (s, outs)) {mid : List Event}
    {visits : List (Option Visit)} (round : Round s f mid visits) (arrivals : ∀ e ∈ mid, e.Proper) (apart : f ≠ g)
    (staysF : Stays f s (.visit :: mid)) (staysG : Stays g s (.visit :: mid)) (steady : events.Along Steady s (.visit :: mid)) :
    ∃ visit ∈ visits, ∃ v ∈ visit, v.flow = g := by
  obtain ⟨s', outs', ring, run, holds⟩ := run_holds buckets blimit proper
  cases Option.some.inj (run.symm.trans reached)
  obtain ⟨v, w, answers, ⟨own, granted⟩, own', granted'⟩ := round.run
  obtain ⟨⟨last, all⟩, whole, same⟩ := Option.map_eq_some_iff.mp answers
  cases same
  have inF : s.queues f ≠ [] := staysF.head
  have inG : s.queues g ≠ [] := staysG.head
  have some : ring ≠ [] := List.ne_nil_of_mem ((holds.sound.circle.member f).mpr inF)
  obtain ⟨first, v', ring', taken, visited, _, after⟩ := holds.visit some
  have step : events.step s .visit = Option.some (first, Option.some v') := congrArg (Option.map _) taken
  rw [Machine.run_cons step] at whole
  obtain ⟨⟨end', rest⟩, whole', joined⟩ := Option.map_eq_some_iff.mp whole
  simp only [Prod.mk.injEq, List.cons.injEq, Option.some.injEq] at joined
  obtain ⟨rfl, rfl, rfl⟩ := joined
  obtain ⟨second, visits', final', early, late, split⟩ := Machine.run_split whole'
  obtain ⟨P, points⟩ := (holds.sound.ranked some).points
  have staysF' : Stays f first mid := staysF.tail step
  have staysG' : Stays g first mid := staysG.tail step
  obtain ⟨P', phase⟩ : ∃ P', Phase f g False first P' :=
    visited.starts holds.sound after.sound apart points own inG staysF'.start
  obtain ⟨P'', ring'', l'', ended, final, atG⟩ := phase.run after apart arrivals (steady.tail step) staysF' staysG' early
  have some' : ring'' ≠ [] := List.ne_nil_of_mem ((ended.sound.circle.member g).mpr atG)
  obtain ⟨next', w', _, taken', visited', _⟩ := ended.visit some'
  have step' : events.step second .visit = Option.some (next', Option.some w') := congrArg (Option.map _) taken'
  rw [Machine.run_cons step'] at late
  cases Option.some.inj late
  obtain ⟨same, same'⟩ := List.append_inj' split rfl
  cases same
  cases same'
  have chosen := visited'.chosen
  rw [final.points, own'] at chosen
  have atP : P'' = (second.dwrr f).weight := Option.some.inj chosen
  have beyond : (second.dwrr f).turn = false := by
    have fresh := visited'.granted
    rw [own', granted'] at fresh
    simpa using fresh.symm
  rcases final.before beyond atP.ge with (never | ⟨visit, member, sees⟩) | ahead
  · exact never.elim
  · exact ⟨Option.some visit, member, visit, rfl, sees⟩
  · omega

end Rounds

/-- Flow 4 is next to be granted a quantum, then flow 3 and flow 2. -/
def bypassCalls : List Call :=
  [.enque (packet 1 4 8000), .enque (packet 2 4 8000), .enque (packet 3 4 8000), .enque (packet 4 3 6000),
    .enque (packet 5 3 6000), .enque (packet 6 2 4000), .enque (packet 7 2 4000)]

def bypassed : DWRR := ((machine.run (make 16 100000) bypassCalls).map Prod.fst).getD (make 16 100000)

theorem bypassed_reached : ∃ outs, machine.run (make 16 100000) bypassCalls = some (bypassed, outs) := by
  have proper : ∀ call ∈ bypassCalls, call.Proper := by decide
  obtain ⟨s, outs, _, run, _⟩ := run_holds 16 100000 proper
  exact ⟨outs, by rw [bypassed, run]; rfl⟩

/-- The visits between the two grants to flow 4 when nothing else arrives. -/
def roundVisits : List (Option Visit) :=
  [some ⟨4, false, none⟩, some ⟨3, true, some (packet 4 3 6000)⟩, some ⟨3, false, none⟩,
    some ⟨2, true, some (packet 6 2 4000)⟩, some ⟨2, false, none⟩]

theorem roundVisits_round : Round bypassed 4 (List.replicate 5 .visit) roundVisits :=
  ⟨⟨⟨4, true, some (packet 1 4 8000)⟩, ⟨4, true, some (packet 2 4 8000)⟩, by decide +kernel⟩, by decide⟩

theorem round_robin_sample : ∃ visit ∈ roundVisits, ∃ v ∈ visit, v.flow = 2 := by
  obtain ⟨outs, reached⟩ := bypassed_reached
  exact round_robin 16 100000 bypassCalls (by decide) reached roundVisits_round (by decide) (by decide)
    (by unfold Stays; decide +kernel) (by unfold Stays; decide +kernel) (by decide +kernel)

/-- The arrival of a packet for a new flow while flow 3 has its turn. -/
def bypassEvents : List Event := [.visit, .visit, .enque (packet 8 1 1000)]

def bypassVisits : List (Option Visit) := [some ⟨4, false, none⟩, some ⟨3, true, some (packet 4 3 6000)⟩, none]

/-- Flow 4 is granted two quanta, and flow 2, which is backlogged all the time, is not visited in between. The calls
that make these visits are `deque`, `deque`, `enque` and `deque`. -/
theorem flow_bypassed :
    Round bypassed 4 bypassEvents bypassVisits ∧ Stays 4 bypassed (.visit :: bypassEvents) ∧
      Stays 2 bypassed (.visit :: bypassEvents) ∧ (∀ visit ∈ bypassVisits, ∀ v ∈ visit, v.flow ≠ 2) ∧
      (machine.run (make 16 100000) (bypassCalls ++ [.deque 9, .deque 9, .enque (packet 8 1 1000), .deque 9])).map
        (fun answers => answers.2.drop 7) = some [⟨some (packet 1 4 8000), []⟩, ⟨some (packet 4 3 6000), []⟩, ⟨none, []⟩,
          ⟨some (packet 2 4 8000), []⟩] :=
  ⟨⟨⟨⟨4, true, some (packet 1 4 8000)⟩, ⟨4, true, some (packet 2 4 8000)⟩, by decide +kernel⟩, by decide⟩,
    by unfold Stays; decide +kernel, by unfold Stays; decide +kernel, by decide, by decide +kernel⟩

end Ns2.DWRR
