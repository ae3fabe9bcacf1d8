import Ns2.Dsdv.Flush

namespace Ns2

namespace DsdvAgent

/-- The turns for the destinations of an update all end, each with its packets conserved and with the chosen entry. -/
def FlushedAll (c : DsdvConfig) (now : ℚ) (saddr : ℕ) : DsdvAgent → List Advert → Prop
  | _, [] => True
  | a, ad :: rest => ∃ turns result, a.turn c now saddr turns ad = some result ∧ Flushed c a now saddr ad result ∧
      FlushedAll c now saddr result.1 rest

/-- `processUpdate` flushes the queues for the destinations of the packet. -/
def FlushesQueues (c : DsdvConfig) (a : DsdvAgent) (now : ℚ) (u : DsdvUpdate) : Prop :=
  u.ttl - 1 = 0 ∨ FlushedAll c now u.saddr a u.adverts

/-- The first valid one of the routes is no older than the entry, whose number is raised by the invalid ones before it. -/
def Answered : ℕ → List Advert → Prop
  | _, [] => True
  | seqnum, ad :: rest =>
    if offered ad = big then Answered (max seqnum ad.seqnum) rest else seqnum < ad.seqnum ∨ seqnum = ad.seqnum ∧ offered ad < big

instance Answered.decidable : ∀ seqnum ads, Decidable (Answered seqnum ads)
  | _, [] => isTrue trivial
  | seqnum, ad :: rest =>
    have := Answered.decidable (max seqnum ad.seqnum) rest
    inferInstanceAs (Decidable (if offered ad = big then Answered (max seqnum ad.seqnum) rest
      else seqnum < ad.seqnum ∨ seqnum = ad.seqnum ∧ offered ad < big))

/-- No destination that packets wait for gets a valid route that is older than its entry. -/
def QueuesAnswered (a : DsdvAgent) (u : DsdvUpdate) : Prop :=
  u.ttl - 1 = 0 ∨ ∀ ad ∈ u.adverts, ad.dst ≠ a.myaddr → ∀ seqnum ∈ a.waitingAt ad.dst,
    Answered seqnum (u.adverts.filter fun ad' => ad'.dst = ad.dst)

instance (a : DsdvAgent) (u : DsdvUpdate) : Decidable (QueuesAnswered a u) :=
  inferInstanceAs (Decidable (_ ∨ ∀ ad ∈ u.adverts, ad.dst ≠ a.myaddr → ∀ seqnum ∈ a.waitingAt ad.dst, _))

variable {a b : DsdvAgent} {c : DsdvConfig} {now : ℚ} {e x : RtableEnt} {d saddr turns : ℕ} {p : DsdvData} {ad : Advert} {ads : List Advert}
  {result : DsdvAgent × List DsdvPacket × List DsdvData}

section Packet

theorem waitingAt_eq_some {seqnum : ℕ} :
    a.waitingAt d = some seqnum ↔ ∃ e, a.getEntry d = some e ∧ e.q.isSome = true ∧ e.seqnum = seqnum := by
  unfold waitingAt
  rw [Option.bind_eq_some_iff]
  refine exists_congr fun e => and_congr_right fun _ => ?_
  split_ifs with waiting
  · exact ⟨fun same => ⟨waiting, Option.some.inj same⟩, fun same => congrArg some same.2⟩
  · exact iff_of_false not_false fun queue => waiting queue.1

/-- `Answered` for each destination that packets wait for. -/
def Clear (a : DsdvAgent) (ads : List Advert) : Prop :=
  ∀ d, d ≠ a.myaddr → ∀ seqnum, a.waitingAt d = some seqnum → Answered seqnum (ads.filter fun ad => ad.dst = d)

theorem queuesAnswered_iff {u : DsdvUpdate} : QueuesAnswered a u ↔ u.ttl - 1 = 0 ∨ Clear a u.adverts := by
  refine or_congr Iff.rfl ⟨fun all d other seqnum waits => ?_, fun clear ad _ other seqnum waits => clear ad.dst other seqnum waits⟩
  cases none' : u.adverts.filter (fun ad => ad.dst = d) with
  | nil => trivial
  | cons ad rest =>
    obtain ⟨member, towards⟩ := List.mem_filter.mp (none' ▸ List.mem_cons_self : ad ∈ u.adverts.filter fun ad => ad.dst = d)
    have here : ad.dst = d := of_decide_eq_true towards
    subst here
    exact none' ▸ all ad member other seqnum waits

theorem filter_here : (ad :: ads).filter (fun ad' => ad'.dst = ad.dst) = ad :: ads.filter fun ad' => ad'.dst = ad.dst :=
  List.filter_cons_of_pos (decide_eq_true rfl)

/-- A valid route for waiting packets is taken. -/
theorem Clear.safe (clear : Clear a (ad :: ads)) (queues : Queues c a) (other : ad.dst ≠ a.myaddr) (found : a.getEntry ad.dst = some e)
    (waiting : e.q.isSome = true) : offered ad = big ∨ Taken e ad := by
  have answered := clear ad.dst other e.seqnum (waitingAt_eq_some.mpr ⟨e, found, waiting, rfl⟩)
  rw [filter_here, Answered] at answered
  split_ifs at answered with lost
  · exact Or.inl lost
  · obtain ⟨q, waiting⟩ := Option.isSome_iff_exists.mp waiting
    have none' := ((queues ad.dst e found).queue q waiting).1
    exact Or.inr (answered.imp id fun equal => ⟨equal.1, none' ▸ equal.2⟩)

/-- The turn for a destination that packets wait for takes care of the route for it. -/
theorem clear_cons_iff (queues : Queues c a) (other : ad.dst ≠ a.myaddr) (done : a.turn c now saddr turns ad = some result) :
    Clear a (ad :: ads) ↔
      (∀ e, a.getEntry ad.dst = some e → e.q.isSome = true → offered ad = big ∨ Taken e ad) ∧ Clear result.1 ads := by
  have mine := turn_myaddr queues done
  have here := turn_waitingAt queues other done
  have later (d : ℕ) (away : d ≠ ad.dst) : (ad :: ads).filter (fun ad' => ad'.dst = d) = ads.filter fun ad' => ad'.dst = d :=
    List.filter_cons_of_neg (by rw [decide_eq_true_eq]; exact away.symm)
  have same (d : ℕ) (away : d ≠ ad.dst) : result.1.waitingAt d = a.waitingAt d := by
    unfold waitingAt
    rw [turn_others queues done away]
  constructor
  · intro clear
    refine ⟨fun e found waiting => clear.safe queues other found waiting, fun d away seqnum waits => ?_⟩
    by_cases towards : d = ad.dst
    · rw [towards, here] at waits
      split_ifs at waits with lost
      obtain ⟨old, before, raised⟩ := Option.map_eq_some_iff.mp waits
      have answered := clear ad.dst other old before
      rw [filter_here, Answered, if_pos lost, raised] at answered
      rw [towards]
      exact answered
    · rw [← later d towards]
      exact clear d (mine ▸ away) seqnum (same d towards ▸ waits)
  · rintro ⟨safe, clear⟩ d away seqnum waits
    by_cases towards : d = ad.dst
    · subst towards
      rw [filter_here, Answered]
      split_ifs with lost
      · refine clear ad.dst (mine ▸ away) _ ?_
        rw [here, if_pos lost, waits, Option.map_some]
      · obtain ⟨e, found, waiting, rfl⟩ := waitingAt_eq_some.mp waits
        have taken := (safe e found waiting).resolve_left lost
        obtain ⟨q, waiting⟩ := Option.isSome_iff_exists.mp waiting
        have none' := ((queues ad.dst e found).queue q waiting).1
        exact taken.imp id fun equal => ⟨equal.1, none' ▸ equal.2⟩
    · rw [later d towards]
      exact clear d (mine ▸ away) seqnum ((same d towards).trans waits)

theorem flushedAll_iff (queues : Queues c a) (ads : List Advert) : FlushedAll c now saddr a ads ↔ Clear a ads := by
  induction ads generalizing a with
  | nil => exact iff_of_true trivial fun d _ seqnum _ => trivial
  | cons ad rest ih =>
    rw [FlushedAll]
    by_cases own : ad.dst = a.myaddr
    · have skip (turns : ℕ) : a.turn c now saddr turns ad = some (a, [], []) := by
        unfold turn
        rw [if_pos own]
      have clear : Clear a (ad :: rest) ↔ Clear a rest := by
        refine forall_congr' fun d => forall_congr' fun away => forall_congr' fun seqnum => ?_
        rw [List.filter_cons_of_neg (by rw [decide_eq_true_eq]; exact own ▸ away.symm)]
      rw [clear, ← ih queues]
      constructor
      · rintro ⟨turns, result, done, _, later⟩
        cases Option.some.inj ((skip turns).symm.trans done)
        exact later
      · intro later
        refine ⟨0, _, skip 0, ⟨turn_conserves queues (skip 0), ?_, fun _ _ => rfl⟩, later⟩
        rw [if_pos own]
    · constructor
      · rintro ⟨turns, result, done, flushed, later⟩
        have chosen := flushed.chosen
        rw [if_neg own] at chosen
        exact (clear_cons_iff queues own done).mpr ⟨(turn_chosen_iff queues own done).mp chosen, (ih (turn_queues queues done)).mp later⟩
      · intro clear
        have safe (e : RtableEnt) (found : a.getEntry ad.dst = some e) (waiting : e.q.isSome = true) : offered ad = big ∨ Taken e ad :=
          clear.safe queues own found waiting
        obtain ⟨turns, result, done⟩ : ∃ turns result, a.turn c now saddr turns ad = some result := turn_ends queues safe
        obtain ⟨_, onward⟩ := (clear_cons_iff queues own done).mp clear
        refine ⟨turns, result, done, ⟨turn_conserves queues done, ?_, fun d away => turn_others queues done away⟩,
          (ih (turn_queues queues done)).mpr onward⟩
        rw [if_neg own]
        exact (turn_chosen_iff queues own done).mpr safe

theorem flushesQueues_iff_answered {u : DsdvUpdate} (queues : Queues c a) : FlushesQueues c a now u ↔ QueuesAnswered a u := by
  rw [queuesAnswered_iff]
  exact or_congr Iff.rfl (flushedAll_iff queues u.adverts)

end Packet

section Events

theorem Queues.map {f : RtableEnt → RtableEnt} (queues : Queues c a) (dst : ∀ e, (f e).dst = e.dst) (ok : ∀ e, Waits c e → Waits c (f e)) :
    Queues c { a with table := a.table.map f } := by
  intro d x found
  rw [getEntry_map f dst] at found
  obtain ⟨e, before, same⟩ := Option.map_eq_some_iff.mp found
  exact same ▸ ok e (queues d e before)

theorem forwardPacket_queues (queues : Queues c a) (towards : p.daddr = some d) : Queues c (forwardPacket c a now d p).1 := by
  unfold forwardPacket
  split_ifs with outside
  · split
    · exact queues
    · split <;> exact queues
  · have inside : c.diffSubnet d = false := Bool.eq_false_iff.mpr outside
    split
    · rename_i prte found
      split_ifs with valid
      · exact queues
      · have here := getEntry_dst found
        refine queues.addEntry ⟨fun q waiting => ?_, fun empty => ?_⟩
        · cases Option.some.inj waiting
          refine ⟨not_not.mp valid, here.symm ▸ inside, fun p' member => ?_⟩
          rcases mem_enque member with old | new
          · obtain ⟨q, queued⟩ : ∃ q, prte.q = some q := Option.ne_none_iff_exists'.mp fun none => by
              rw [none] at old
              cases old
            rw [queued] at old
            exact ((queues d prte found).queue q queued).2.2 p' old
          · rw [new, towards]
            exact congrArg some here.symm
        · have none := List.drop_eq_nil_iff.mp (Option.some.inj empty)
          rw [List.length_append, List.length_singleton] at none
          omega
    · refine queues.addEntry ⟨fun q waiting => ?_, fun empty => ?_⟩
      · cases Option.some.inj waiting
        refine ⟨rfl, inside, fun p' member => ?_⟩
        rw [List.mem_singleton.mp member]
        exact towards
      · cases Option.some.inj empty

theorem recvData_queues (queues : Queues c a) : Queues c (recvData c a now p).1 := by
  have routed (p' : DsdvData) : Queues c (routeData c a now p').1 := by
    unfold routeData
    cases towards : p'.daddr with
    | none => exact queues
    | some dst => exact forwardPacket_queues queues towards
  unfold recvData
  split_ifs
  · exact routed { p with ttl := 32 }
  · exact queues
  · exact queues
  · exact routed { p with ttl := p.ttl - 1 }

theorem timeout_queues {dest : ℕ} (queues : Queues c a) : Queues c (a.timeout now dest) := by
  have lost (e : RtableEnt) (waits : Waits c e) (valid : e.metric ≠ big) : Waits c (e.lost now) := by
    refine .empty ?_
    cases waiting : e.q with
    | none => exact waiting
    | some q => exact absurd (waits.queue q waiting).1 valid
  refine queues.map (fun e => ?_) fun e waits => ?_
  · split_ifs <;> rfl
  · dsimp only
    split_ifs with here across across
    · exact (lost e waits across.2).same ⟨rfl, rfl⟩ rfl
    · exact waits.same ⟨rfl, rfl⟩ rfl
    · exact lost e waits across.2
    · exact waits

theorem makeUpdate_queues {periodic : Bool} {made : DsdvAgent × Option DsdvUpdate} (queues : Queues c a)
    (done : a.makeUpdate now periodic = some made) : Queues c made.1 := by
  unfold makeUpdate at done
  dsimp only at done
  generalize (periodic || a.muchChanged now) = periodic at done
  obtain ⟨m, current, kept⟩ : ∃ m, (if periodic = true then
      ({ a with seqno := a.seqno + 2 } : DsdvAgent).addEntry (selfEntry { a with seqno := a.seqno + 2 } now) else a) = m ∧ Queues c m := by
    split_ifs
    · have raised : Queues c { a with seqno := a.seqno + 2 } := queues
      exact ⟨_, rfl, raised.addEntry (.empty rfl)⟩
    · exact ⟨a, rfl, queues⟩
  rw [current] at done
  split_ifs at done
  · cases Option.some.inj done
    exact kept
  · cases Option.some.inj (asserting_eq_some done).2
    refine kept.map (fun e => ?_) fun e waits => ?_
    · split_ifs <;> rfl
    · split_ifs
      · exact waits.same ⟨rfl, rfl⟩ rfl
      · exact waits

theorem awaitNeighbor_queues (queues : Queues c a) : Queues c (awaitNeighbor c a now saddr) := by
  unfold awaitNeighbor
  cases found : a.getEntry saddr with
  | none => exact queues.addEntry (.empty rfl)
  | some prte => exact queues.addEntry ((queues saddr prte found).same ⟨rfl, rfl⟩ rfl)

theorem processAdverts_queues {given : DsdvAgent × List DsdvPacket} (queues : Queues c a)
    (done : processAdverts c a now saddr ads = some given) : Queues c given.1 := by
  induction ads generalizing a given with
  | nil =>
    cases Option.some.inj done
    exact queues
  | cons ad rest ih =>
    obtain ⟨first, processed, more⟩ := Option.bind_eq_some_iff.mp done
    obtain ⟨last, later, joined⟩ := Option.bind_eq_some_iff.mp more
    cases Option.some.inj joined
    obtain ⟨turns, dropped, turned⟩ := turn_of_processAdvert processed
    have kept : Queues c first.1 := turn_queues queues turned
    have onward : Queues c last.1 := ih kept later
    exact onward

theorem handle_queues {event : Event} {given : DsdvAgent × List DsdvPacket} (queues : Queues c a)
    (done : handle c a now event = some given) : Queues c given.1 := by
  cases event with
  | update u =>
    rw [handle, processUpdate] at done
    split_ifs at done
    · cases Option.some.inj done
      exact queues
    · obtain ⟨processed, each, same⟩ := Option.map_eq_some_iff.mp done
      subst same
      exact awaitNeighbor_queues (processAdverts_queues queues each)
  | data p =>
    cases Option.some.inj done
    exact recvData_queues queues
  | lostLink p =>
    cases Option.some.inj done
    unfold lostLink
    split_ifs
    · exact queues
    · split
      · exact queues
      · refine recvData_queues ?_
        split_ifs
        · exact timeout_queues queues
        · exact queues
  | periodic =>
    obtain ⟨made, update, same⟩ := Option.map_eq_some_iff.mp done
    subst same
    have kept : Queues c made.1 := makeUpdate_queues queues update
    exact kept
  | trigger =>
    rw [handle] at done
    split_ifs at done
    · cases Option.some.inj done
      exact queues
    · obtain ⟨made, update, same⟩ := Option.map_eq_some_iff.mp done
      subst same
      have kept : Queues c made.1 := makeUpdate_queues queues update
      exact kept
  | timeout dest =>
    rw [handle] at done
    split at done
    · cases Option.some.inj done
      dsimp only
      split_ifs
      · exact timeout_queues queues
      · exact queues
    · cases Option.some.inj done
      exact queues

end Events

end DsdvAgent

namespace DsdvNetwork

open DsdvAgent

theorem step_queues {c : ℕ → DsdvConfig} {net next : DsdvNetwork} {s : ℚ × DsdvStep} {out : Unit}
    (queues : ∀ i, Queues (c i) (net.node i)) (step : (machine c).step net s = some (next, out)) : ∀ i, Queues (c i) (next.node i) := by
  unfold machine at step
  dsimp only at step
  cases happens : net.event s.2 with
  | none =>
    rw [happens] at step
    cases Option.some.inj step
    exact queues
  | some what =>
    obtain ⟨i, event⟩ := what
    rw [happens] at step
    obtain ⟨given, handled, same⟩ := Option.map_eq_some_iff.mp step
    cases same
    intro j
    by_cases here : j = i
    · rw [here, after_node_self]
      exact handle_queues (queues i) handled
    · rw [after_node_other here]
      exact queues j

theorem queues_initial {c : ℕ → DsdvConfig} (i : ℕ) : Queues (c i) (initial.node i) := by
  intro d e found
  cases List.mem_singleton.mp (getEntry_mem found)
  exact .empty rfl

theorem run_queues {c : ℕ → DsdvConfig} {steps : List (ℚ × DsdvStep)} {net : DsdvNetwork} {outs : List Unit}
    (run : (machine c).run initial steps = some (net, outs)) : ∀ i, Queues (c i) (net.node i) :=
  have kept (net : DsdvNetwork) (s : ℚ × DsdvStep) (next : DsdvNetwork) (out : Unit) (queues : ∀ i, Queues (c i) (net.node i)) (_ : True)
      (step : (machine c).step net s = some (next, out)) : ∀ i, Queues (c i) (next.node i) := step_queues queues step
  Machine.run_kept kept queues_initial (Machine.along_trivial (machine c) initial steps) run

/-- In every run each update flushes the queues of its receiver exactly if it answers them. -/
theorem flushesQueues_iff (c : ℕ → DsdvConfig) (steps : List (ℚ × DsdvStep)) (net : DsdvNetwork) (outs : List Unit)
    (run : (machine c).run initial steps = some (net, outs)) (i : ℕ) (now : ℚ) (u : DsdvUpdate) :
    FlushesQueues (c i) (net.node i) now u ↔ QueuesAnswered (net.node i) u :=
  flushesQueues_iff_answered (run_queues run i)

/-- Node 1 loses its neighbor 0 and originates a packet for it. -/
def ownLostRun : List (ℚ × DsdvStep) := [(50, .own 1 (.timeout 0)), (51, .own 1 (.data ⟨1, some 0, 0, 0, 1⟩))]

/-- The update of 2 in `routesRun`, with the route over 1 from before. -/
def staleUpdate : DsdvUpdate := ⟨2, 32, [⟨0, 2, 4⟩, ⟨1, 1, 4⟩, ⟨2, 0, 4⟩]⟩

theorem flushesQueues_iff_sample : ∃ net outs, (machine sampleConfig).run initial (routesRun ++ ownLostRun) = some (net, outs) ∧
    (FlushesQueues (sampleConfig 1) (net.node 1) 52 staleUpdate ↔ QueuesAnswered (net.node 1) staleUpdate) := by
  have succeeds : ((machine sampleConfig).run initial (routesRun ++ ownLostRun)).isSome = true := by decide +kernel
  obtain ⟨⟨net, outs⟩, run⟩ := Option.isSome_iff_exists.mp succeeds
  exact ⟨net, outs, run, flushesQueues_iff sampleConfig _ net outs run 1 52 staleUpdate⟩

/-- The update has been sent, and the loop for its first destination does not end. -/
theorem stale_update_circles : ¬∀ (steps : List (ℚ × DsdvStep)) (net : DsdvNetwork) (outs : List Unit),
    (machine sampleConfig).run initial steps = some (net, outs) → ∀ (i : ℕ) (now : ℚ) (u : DsdvUpdate), .update u ∈ net.sent → u.saddr ≠ i →
      FlushesQueues (sampleConfig i) (net.node i) now u := by
  intro claimed
  have succeeds : ((machine sampleConfig).run initial (routesRun ++ ownLostRun)).any (fun result => decide
      (.update staleUpdate ∈ result.1.sent ∧ (result.1.node 1).myaddr = 1 ∧ ∃ e ∈ (result.1.node 1).getEntry 0,
        e.q = some [⟨1, some 0, 32, 0, 1⟩] ∧ ¬(e.seqnum < 4 ∨ e.seqnum = 4 ∧ 3 < e.metric))) = true := by decide +kernel
  obtain ⟨⟨net, outs⟩, run, reached⟩ := (Option.any_eq_true _ _).mp succeeds
  obtain ⟨sent, myaddr, e, found, waiting, worse⟩ := of_decide_eq_true reached
  rcases claimed _ net outs run 1 52 staleUpdate sent (by decide) with ended | ⟨turns, result, done, _⟩
  · exact absurd ended (by decide)
  · have worse : ¬Taken e ⟨0, 2, 4⟩ := worse
    have circles : (net.node 1).turn (sampleConfig 1) 52 2 turns ⟨0, 2, 4⟩ = none := by
      refine turn_circles (run_queues run 1) ?_ found waiting (fun p member => ?_) worse (by decide) turns
      · rw [myaddr]
        decide
      · rw [List.mem_singleton.mp member, myaddr]
        exact ⟨rfl, rfl⟩
    exact Option.some_ne_none result (done.symm.trans circles)

end DsdvNetwork

end Ns2
