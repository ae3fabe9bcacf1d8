import Ns2.Dsdv.Agent
import Ns2.Library.Acyclic

namespace Ns2

open DsdvAgent

def RtableEnt.route (e : RtableEnt) : RouteOrder.Route ℕ := ⟨e.seqnum, e.metric, e.hop⟩

namespace DsdvAgent

variable {a b : DsdvAgent} {c : DsdvConfig} {now : ℚ} {e ent x y : RtableEnt} {d dst : ℕ}

theorem getEntry_dst (found : a.getEntry d = some e) : e.dst = d := by
  have holds := List.find?_some found
  exact of_decide_eq_true holds

theorem getEntry_mem (found : a.getEntry d = some e) : e ∈ a.table := List.mem_of_find?_eq_some found

theorem find?_cons_entry {rest table : List RtableEnt}
    (others : d ≠ ent.dst → rest.find? (fun e => e.dst = d) = table.find? fun e => e.dst = d) :
    (ent :: rest).find? (fun e => e.dst = d) = if d = ent.dst then some ent else table.find? fun e => e.dst = d := by
  rw [List.find?_cons]
  by_cases here : d = ent.dst
  · rw [if_pos here, decide_eq_true here.symm]
  · rw [if_neg here, decide_eq_false (Ne.symm here)]
    exact others here

theorem find?_insertEntry (ent : RtableEnt) (table : List RtableEnt) (d : ℕ) :
    (insertEntry ent table).find? (fun e => e.dst = d) = if d = ent.dst then some ent else table.find? fun e => e.dst = d := by
  induction table with
  | nil => exact find?_cons_entry fun _ => rfl
  | cons it rest ih =>
    rw [insertEntry]
    by_cases less : ent.dst < it.dst
    · rw [if_pos less]
      exact find?_cons_entry fun _ => rfl
    · by_cases equal : ent.dst = it.dst
      · rw [if_neg less, if_pos equal]
        refine find?_cons_entry fun other => ?_
        rw [List.find?_cons, decide_eq_false fun same => other (same.symm.trans equal.symm)]
      · rw [if_neg less, if_neg equal, List.find?_cons, List.find?_cons, ih]
        by_cases here : d = ent.dst
        · rw [if_pos here, if_pos here, decide_eq_false fun same => equal (here.symm.trans same.symm)]
        · rw [if_neg here, if_neg here]

theorem getEntry_addEntry (a : DsdvAgent) (ent : RtableEnt) (d : ℕ) :
    (a.addEntry ent).getEntry d = if d = ent.dst then some ent else a.getEntry d := find?_insertEntry ent a.table d

theorem mem_insertEntry {table : List RtableEnt} (member : e ∈ insertEntry ent table) : e = ent ∨ e ∈ table := by
  induction table with
  | nil => exact Or.inl (List.mem_singleton.mp member)
  | cons it rest ih =>
    rw [insertEntry] at member
    split_ifs at member
    · exact List.mem_cons.mp member
    · exact (List.mem_cons.mp member).imp id (List.mem_cons_of_mem it)
    · rcases List.mem_cons.mp member with first | later
      · exact Or.inr (first ▸ List.mem_cons_self)
      · exact (ih later).imp id (List.mem_cons_of_mem it)

theorem sorted_insertEntry {table : List RtableEnt} (ent : RtableEnt) (sorted : table.Pairwise fun e e' => e.dst < e'.dst) :
    (insertEntry ent table).Pairwise fun e e' => e.dst < e'.dst := by
  induction table with
  | nil => exact List.pairwise_singleton _ _
  | cons it rest ih =>
    obtain ⟨above, later⟩ := List.pairwise_cons.mp sorted
    rw [insertEntry]
    split_ifs with less equal
    · refine List.pairwise_cons.mpr ⟨fun e member => ?_, sorted⟩
      rcases List.mem_cons.mp member with first | inside
      · exact first ▸ less
      · exact less.trans (above e inside)
    · exact List.pairwise_cons.mpr ⟨fun e member => equal ▸ above e member, later⟩
    · refine List.pairwise_cons.mpr ⟨fun e member => ?_, ih later⟩
      rcases mem_insertEntry member with new | old
      · exact new ▸ by omega
      · exact above e old

theorem insertEntry_insertEntry (table : List RtableEnt) (same : x.dst = y.dst) :
    insertEntry y (insertEntry x table) = insertEntry y table := by
  induction table with
  | nil => simp [insertEntry, same]
  | cons it rest ih =>
    rw [insertEntry]
    split_ifs with less equal
    · rw [insertEntry, insertEntry, if_neg (by omega), if_pos same.symm, if_pos (by omega)]
    · rw [insertEntry, insertEntry, if_neg (by omega), if_pos same.symm, if_neg (by omega), if_pos (same.symm.trans equal)]
    · rw [insertEntry, insertEntry, if_neg (by omega), if_neg (by omega), if_neg (by omega), if_neg (by omega), ih]

/-- The last entry for a destination counts. -/
theorem addEntry_addEntry (a : DsdvAgent) (same : x.dst = y.dst) : (a.addEntry x).addEntry y = a.addEntry y :=
  congrArg (fun table => { a with table := table }) (insertEntry_insertEntry a.table same)

theorem getEntry_of_mem (sorted : a.table.Pairwise fun e e' => e.dst < e'.dst) (member : e ∈ a.table) : a.getEntry e.dst = some e := by
  unfold getEntry
  generalize a.table = table at sorted member
  induction table with
  | nil => cases member
  | cons it rest ih =>
    obtain ⟨above, later⟩ := List.pairwise_cons.mp sorted
    rcases List.mem_cons.mp member with first | inside
    · subst first
      simp
    · have other := above e inside
      rw [List.find?_cons, decide_eq_false (by omega)]
      exact ih later inside

theorem getEntry_map (f : RtableEnt → RtableEnt) (same : ∀ e, (f e).dst = e.dst) (d : ℕ) :
    { a with table := a.table.map f }.getEntry d = (a.getEntry d).map f := by
  unfold getEntry
  rw [List.find?_map]
  refine congrArg (fun p => Option.map f (List.find? p a.table)) (funext fun e => ?_)
  rw [Function.comp_apply, same]

section Queues

/-- What is queued in an entry is for its destination, and waits for a route. -/
def QueueOk (c : DsdvConfig) (e : RtableEnt) : Prop :=
  ∀ q, e.q = some q → e.metric = big ∧ c.diffSubnet e.dst = false ∧ ∀ p ∈ q, p.daddr = some e.dst

theorem mem_enque {q : List DsdvData} {p p' : DsdvData} (member : p' ∈ enque q p) : p' ∈ q ∨ p' = p := by
  rcases List.mem_append.mp (List.mem_of_mem_drop member) with old | new
  · exact Or.inl old
  · exact Or.inr (List.mem_singleton.mp new)

/-- A packet from the queue of an entry goes out or back into the queue. -/
theorem recvData_queued {q : List DsdvData} {p : DsdvData} (inside : c.diffSubnet e.dst = false)
    (all : ∀ p' ∈ q, p'.daddr = some e.dst) (towards : p.daddr = some e.dst) :
    ∃ q', (recvData c (a.addEntry { e with q := some q }) now p).1 = a.addEntry { e with q := some q' } ∧ ∀ p' ∈ q', p'.daddr = some e.dst := by
  have found : (a.addEntry { e with q := some q }).getEntry e.dst = some { e with q := some q } := by
    rw [getEntry_addEntry, if_pos rfl]
  have routed (p' : DsdvData) (towards' : p'.daddr = some e.dst) :
      ∃ q', (routeData c (a.addEntry { e with q := some q }) now p').1 = a.addEntry { e with q := some q' } ∧
        ∀ p' ∈ q', p'.daddr = some e.dst := by
    unfold routeData
    rw [towards']
    dsimp only
    rw [forwardPacket, inside, if_neg (by decide), found]
    dsimp only
    split_ifs
    · exact ⟨q, rfl, all⟩
    · refine ⟨_, addEntry_addEntry a rfl, fun p'' member => ?_⟩
      exact (mem_enque member).elim (all p'') fun new => new ▸ towards'
  unfold recvData
  split_ifs
  · exact routed _ towards
  · exact ⟨q, rfl, all⟩
  · exact ⟨q, rfl, all⟩
  · exact routed _ towards

/-- All that emptying a queue changes in the table is the queue. -/
theorem drain_spec {q : List DsdvData} {turns : ℕ} {result : DsdvAgent × List DsdvPacket} (inside : c.diffSubnet e.dst = false)
    (all : ∀ p' ∈ q, p'.daddr = some e.dst) (drained : drain c now e.dst turns (a.addEntry { e with q := some q }) = some result) :
    ∃ q', result.1 = a.addEntry { e with q := some q' } := by
  induction turns generalizing q result with
  | zero => cases drained
  | succ turns ih =>
    have found : (a.addEntry { e with q := some q }).getEntry e.dst = some { e with q := some q } := by
      rw [getEntry_addEntry, if_pos rfl]
    rw [drain, found] at drained
    dsimp only at drained
    cases q with
    | nil =>
      cases Option.some.inj drained
      exact ⟨[], rfl⟩
    | cons p rest =>
      obtain ⟨first, others⟩ := List.forall_mem_cons.mp all
      dsimp only at drained
      rw [addEntry_addEntry a (rfl : ({ e with q := some (p :: rest) } : RtableEnt).dst = { e with q := some rest }.dst)] at drained
      obtain ⟨q', given, all'⟩ : ∃ q', (recvData c (a.addEntry { e with q := some rest }) now p).1 = a.addEntry { e with q := some q' } ∧
          ∀ p' ∈ q', p'.daddr = some e.dst := recvData_queued inside others first
      rw [given] at drained
      obtain ⟨last, later, joined⟩ := Option.bind_eq_some_iff.mp drained
      cases Option.some.inj joined
      obtain ⟨q'', same⟩ := ih all' later
      exact ⟨q'', same⟩

end Queues

section Adverts

/-- Two entries with the same route. -/
structure SameRoute (old new : RtableEnt) : Prop where
  dst : new.dst = old.dst
  route : new.route = old.route

/-- The update gives a finite metric with an old sequence number for a destination that packets are queued for:
the code stores the route all the same when it empties the queue. -/
def ReStores (e : RtableEnt) (ad : Advert) : Prop := e.q.isSome = true ∧ offered ad ≠ big ∧ ad.seqnum < e.seqnum

instance (e : RtableEnt) (ad : Advert) : Decidable (ReStores e ad) := inferInstanceAs (Decidable (_ ∧ _))

/-- The entry has the route that the update gives. -/
structure Learned (saddr : ℕ) (ad : Advert) (e : RtableEnt) : Prop where
  dst : e.dst = ad.dst
  route : e.route = ⟨ad.seqnum, offered ad, saddr⟩

/-- What a destination in an update may change. -/
inductive Processed (c : DsdvConfig) (saddr : ℕ) (ad : Advert) (a : DsdvAgent) : DsdvAgent → Prop
  | kept : Processed c saddr ad a a
  | same (e x : RtableEnt) (found : a.getEntry ad.dst = some e) (same : SameRoute e x) (queue : x.q = e.q) :
      Processed c saddr ad a (a.addEntry x)
  | learned (x : RtableEnt) (learned : Learned saddr ad x) (queue : QueueOk c x)
      (better : ∀ e, a.getEntry ad.dst = some e → RouteOrder.AtLeast e.route x.route) : Processed c saddr ad a (a.addEntry x)

theorem heard_timed (c : DsdvConfig) (now : ℚ) (saddr : ℕ) (ad : Advert) (prte : Option RtableEnt) :
    Learned saddr ad (timed c now prte (heard now prte saddr ad)) ∧
      (timed c now prte (heard now prte saddr ad)).q = (prte.getD .zero).q := by
  unfold timed
  cases prte with
  | none => exact ⟨⟨rfl, rfl⟩, rfl⟩
  | some prte =>
    dsimp only
    split_ifs <;> exact ⟨⟨rfl, rfl⟩, rfl⟩

/-- A route that the agent takes, and the queue that is emptied when it is valid. -/
theorem flush_taken {saddr : ℕ} {ad : Advert} {rte : RtableEnt} {result : DsdvAgent × List DsdvPacket} (learned : Learned saddr ad rte)
    (queue : ∀ q, rte.q = some q → c.diffSubnet rte.dst = false ∧ ∀ p ∈ q, p.daddr = some rte.dst)
    (better : ∀ e, a.getEntry ad.dst = some e → RouteOrder.AtLeast e.route rte.route)
    (done : flush c (a.addEntry rte) now rte = some result) : Processed c saddr ad a result.1 := by
  unfold flush at done
  cases waiting : rte.q with
  | none =>
    rw [waiting] at done
    cases Option.some.inj done
    exact .learned rte learned (fun q some => by rw [waiting] at some; cases some) better
  | some q =>
    rw [waiting] at done
    obtain ⟨inside, all⟩ := queue q waiting
    dsimp only at done
    split_ifs at done with valid
    · obtain ⟨drained, emptied, same⟩ := Option.map_eq_some_iff.mp done
      subst same
      have whole : rte = { rte with q := some q } := by rw [← waiting]
      rw [whole] at emptied
      obtain ⟨q', left⟩ := drain_spec inside all emptied
      dsimp only at left ⊢
      rw [left, addEntry_addEntry a (rfl : ({ rte with q := some q' } : RtableEnt).dst = { rte with q := none }.dst)]
      exact .learned _ ⟨learned.dst, learned.route⟩ nofun better
    · cases Option.some.inj done
      refine .learned rte learned (fun q' some => ?_) better
      obtain ⟨inside', all'⟩ := queue q' some
      exact ⟨not_not.mp valid, inside', all'⟩

theorem flush_idle {rte : RtableEnt} {result : DsdvAgent × List DsdvPacket} (idle : rte.q = none ∨ rte.metric = big)
    (done : flush c a now rte = some result) : result.1 = a := by
  unfold flush at done
  cases waiting : rte.q with
  | none =>
    rw [waiting] at done
    cases Option.some.inj done
    rfl
  | some q =>
    rw [waiting] at done idle
    dsimp only at done
    rw [if_neg (not_not.mpr (idle.resolve_left (Option.some_ne_none q)))] at done
    cases Option.some.inj done
    rfl

theorem processAdvert_spec {saddr : ℕ} {ad : Advert} {result : DsdvAgent × List DsdvPacket}
    (queues : ∀ e, a.getEntry ad.dst = some e → QueueOk c e) (spares : ∀ e, a.getEntry ad.dst = some e → ¬ReStores e ad)
    (small : offered ad ≤ big) (done : processAdvert c a now saddr ad = some result) :
    Processed c saddr ad a result.1 ∧ (result.1 ≠ a → ad.dst ≠ a.myaddr) := by
  unfold processAdvert at done
  split_ifs at done with own
  · cases Option.some.inj done
    exact ⟨.kept, fun changed => absurd rfl changed⟩
  refine ⟨?_, fun _ => own⟩
  obtain ⟨learned, queue⟩ := heard_timed c now saddr ad (a.getEntry ad.dst)
  dsimp only at done
  generalize timed c now (a.getEntry ad.dst) (heard now (a.getEntry ad.dst) saddr ad) = rte at done learned queue
  unfold asserting at done
  split_ifs at done
  have metric : rte.metric = offered ad := congrArg RouteOrder.Route.hops learned.route
  have seqnum : rte.seqnum = ad.seqnum := congrArg RouteOrder.Route.seqno learned.route
  unfold decideRoute at done
  cases found : a.getEntry ad.dst with
  | none =>
    rw [found] at done queue
    dsimp only at done
    have fresh : ∀ x : RtableEnt, ∀ e, a.getEntry ad.dst = some e → RouteOrder.AtLeast e.route x.route := fun _ e some => by
      rw [found] at some
      cases some
    refine flush_taken ?_ ?_ (fresh _) done
    · split_ifs <;> exact ⟨learned.dst, learned.route⟩
    · intro q some
      have none : rte.q = none := queue
      split_ifs at some <;> · rw [none] at some; cases some
  | some prte =>
    rw [found] at done queue
    have queue : rte.q = prte.q := queue
    have queueOk := queues prte found
    have towards : rte.dst = prte.dst := learned.dst.trans (getEntry_dst found).symm
    have waits : ∀ q, rte.q = some q → c.diffSubnet rte.dst = false ∧ ∀ p ∈ q, p.daddr = some rte.dst := fun q some => by
      obtain ⟨_, inside, all⟩ := queueOk q (queue.symm.trans some)
      exact ⟨towards ▸ inside, towards ▸ all⟩
    dsimp only at done
    split_ifs at done with equal less newer lost
    · refine flush_taken ?_ ?_ (fun e some => ?_) done
      · exact ⟨learned.dst, learned.route⟩
      · exact waits
      · rw [found] at some
        cases Option.some.inj some
        exact Or.inr ⟨equal, Nat.le_of_lt less⟩
    · -- an entry that packets wait in has no route, so that a valid one would have been shorter
      refine (flush_idle ?_ done) ▸ .kept
      cases waiting : rte.q with
      | none => exact Or.inl rfl
      | some q =>
        have none := (queueOk q (queue.symm.trans waiting)).1
        refine Or.inr ?_
        dsimp only
        omega
    · refine flush_taken ?_ ?_ (fun e some => ?_) done
      · exact ⟨learned.dst, learned.route⟩
      · exact waits
      · rw [found] at some
        cases Option.some.inj some
        exact Or.inl newer
    · rw [flush_idle (Or.inr lost.1) done]
      exact .same prte _ found ⟨rfl, rfl⟩ rfl
    · refine (flush_idle ?_ done) ▸ .kept
      have kept := spares prte found
      unfold ReStores at kept
      cases waiting : rte.q with
      | none => exact Or.inl rfl
      | some q =>
        refine Or.inr (Classical.byContradiction fun valid => kept ⟨?_, metric ▸ valid, by omega⟩)
        rw [← queue, waiting]
        rfl

end Adverts

end DsdvAgent

end Ns2
