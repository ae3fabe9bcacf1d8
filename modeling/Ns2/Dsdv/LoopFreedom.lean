import Mathlib.Logic.Function.Basic
import Ns2.Dsdv.Table

namespace Ns2

open DsdvAgent

/-- The agents and all the packets that they have sent, delivered or not. -/
structure DsdvNetwork where
  node : ℕ → DsdvAgent
  sent : List DsdvPacket

/-- A sent packet comes in at a node, or something else happens at a node. -/
inductive DsdvStep
  | deliver (i k : ℕ)
  | own (i : ℕ) (event : DsdvAgent.Event)
deriving DecidableEq

namespace DsdvNetwork

def initial : DsdvNetwork := ⟨startUp, []⟩

/-- The event of a step. An update is broadcast to the other nodes; what happens otherwise is not an update. -/
def event (net : DsdvNetwork) : DsdvStep → Option (ℕ × DsdvAgent.Event)
  | .deliver i k =>
    match net.sent[k]? with
    | some (.update u) => if u.saddr ≠ i then some (i, .update u) else none
    | some (.data p) => if p.nextHop = i then some (i, .data p) else none
    | none => none
  | .own _ (.update _) => none
  | .own i event => some (i, event)

def after (net : DsdvNetwork) (i : ℕ) (result : DsdvAgent × List DsdvPacket) : DsdvNetwork where
  node := Function.update net.node i result.1
  sent := net.sent ++ result.2

def machine (c : ℕ → DsdvConfig) : Machine DsdvNetwork (ℚ × DsdvStep) Unit where
  step net s :=
    match net.event s.2 with
    | some (i, event) => ((net.node i).handle (c i) s.1 event).map fun result => (net.after i result, ())
    | none => some (net, ())

/-- The entries of all nodes for a destination. -/
def view (net : DsdvNetwork) (d : ℕ) : RouteOrder.View ℕ := fun i => ((net.node i).getEntry d).map RtableEnt.route

/-- What holds of an entry of a node. -/
structure EntryOk (c : DsdvConfig) (net : DsdvNetwork) (i seqno : ℕ) (e : RtableEnt) : Prop where
  small : e.metric ≤ big
  bounded : e.seqnum < 2 ^ 32
  even : e.metric ≠ big → e.seqnum % 2 = 0
  own : e.dst = i → e.seqnum ≤ seqno + 1 ∧ (e.metric ≠ big → e.seqnum ≤ seqno)
  supported : e.dst ≠ i → e.metric ≠ big → RouteOrder.Supports (net.view e.dst) e.dst e.seqnum e.metric e.hop
  queue : QueueOk c e

/-- What holds of a node. -/
structure Kept (c : DsdvConfig) (net : DsdvNetwork) (i : ℕ) (a : DsdvAgent) : Prop where
  myaddr : a.myaddr = i
  even : a.seqno % 2 = 0
  bounded : a.seqno < 2 ^ 32
  sorted : a.table.Pairwise fun e e' => e.dst < e'.dst
  entries : ∀ e ∈ a.table, EntryOk c net i a.seqno e

/-- What holds of a destination in an update. -/
structure AdvertOk (net : DsdvNetwork) (saddr : ℕ) (ad : Advert) : Prop where
  small : ad.metric ≤ big
  bounded : ad.seqnum < 2 ^ 32
  even : ad.metric ≠ big → ad.seqnum % 2 = 0
  supports : ad.metric ≠ big → RouteOrder.Supports (net.view ad.dst) ad.dst ad.seqnum (ad.metric + 1) saddr

structure UpdateOk (net : DsdvNetwork) (u : DsdvUpdate) : Prop where
  distinct : (u.adverts.map Advert.dst).Nodup
  adverts : ∀ ad ∈ u.adverts, AdvertOk net u.saddr ad

/-- An agent before and after some of its routines. -/
structure Onward (a b : DsdvAgent) : Prop where
  seqno : a.seqno ≤ b.seqno
  entries : ∀ d e, a.getEntry d = some e → ∃ e', b.getEntry d = some e' ∧ RouteOrder.AtLeast e.route e'.route

variable {c : DsdvConfig} {net : DsdvNetwork} {i d : ℕ} {a b : DsdvAgent} {e x : RtableEnt} {now : ℚ}

theorem Onward.refl (a : DsdvAgent) : Onward a a := ⟨le_rfl, fun _ e found => ⟨e, found, .refl e.route⟩⟩

theorem Onward.trans {m : DsdvAgent} (first : Onward a m) (second : Onward m b) : Onward a b where
  seqno := first.seqno.trans second.seqno
  entries d e found := by
    obtain ⟨mid, found', atLeast⟩ := first.entries d e found
    obtain ⟨e', found'', atLeast'⟩ := second.entries d mid found'
    exact ⟨e', found'', atLeast.trans atLeast'⟩

theorem Kept.entry (kept : Kept c net i a) (found : a.getEntry d = some e) : EntryOk c net i a.seqno e :=
  kept.entries e (getEntry_mem found)

/-- A change of one entry. -/
theorem Kept.addEntry (kept : Kept c net i a) (ok : EntryOk c net i a.seqno x) : Kept c net i (a.addEntry x) where
  myaddr := kept.myaddr
  even := kept.even
  bounded := kept.bounded
  sorted := sorted_insertEntry x kept.sorted
  entries e member := (mem_insertEntry member).elim (fun new => new ▸ ok) (kept.entries e)

theorem Onward.addEntry (better : ∀ e, a.getEntry x.dst = some e → RouteOrder.AtLeast e.route x.route) : Onward a (a.addEntry x) where
  seqno := le_rfl
  entries d e found := by
    rw [getEntry_addEntry]
    split_ifs with here
    · exact ⟨x, rfl, better e (here ▸ found)⟩
    · exact ⟨e, found, .refl e.route⟩

/-- A change of the entries one by one. -/
theorem Kept.map {f : RtableEnt → RtableEnt} (kept : Kept c net i a) (dst : ∀ e, (f e).dst = e.dst)
    (ok : ∀ e ∈ a.table, EntryOk c net i a.seqno (f e)) : Kept c net i { a with table := a.table.map f } where
  myaddr := kept.myaddr
  even := kept.even
  bounded := kept.bounded
  sorted := by
    rw [List.pairwise_map]
    exact kept.sorted.imp fun less => by rwa [dst, dst]
  entries e member := by
    obtain ⟨old, inside, same⟩ := List.mem_map.mp member
    exact same ▸ ok old inside

theorem Onward.map {f : RtableEnt → RtableEnt} (dst : ∀ e, (f e).dst = e.dst)
    (better : ∀ e ∈ a.table, RouteOrder.AtLeast e.route (f e).route) : Onward a { a with table := a.table.map f } where
  seqno := le_rfl
  entries d e found := ⟨f e, by rw [getEntry_map f dst, found, Option.map_some], better e (getEntry_mem found)⟩

theorem EntryOk.same {seqno : ℕ} (ok : EntryOk c net i seqno e) (same : DsdvAgent.SameRoute e x) (queue : QueueOk c x) :
    EntryOk c net i seqno x := by
  obtain ⟨dst, route⟩ := same
  have seqnum : x.seqnum = e.seqnum := congrArg RouteOrder.Route.seqno route
  have metric : x.metric = e.metric := congrArg RouteOrder.Route.hops route
  have hop : x.hop = e.hop := congrArg RouteOrder.Route.nexthop route
  constructor
  · exact metric ▸ ok.small
  · exact seqnum ▸ ok.bounded
  · exact metric ▸ seqnum ▸ ok.even
  · exact dst ▸ metric ▸ seqnum ▸ ok.own
  · exact dst ▸ metric ▸ seqnum ▸ hop ▸ ok.supported
  · exact queue

theorem queueOk_same (ok : QueueOk c e) (same : DsdvAgent.SameRoute e x) (queue : x.q = e.q) : QueueOk c x := by
  have metric : x.metric = e.metric := congrArg RouteOrder.Route.hops same.route
  intro q waiting
  rw [metric, same.dst]
  exact ok q (queue.symm.trans waiting)

/-- The outcome of a routine. -/
structure Good (c : DsdvConfig) (net : DsdvNetwork) (i : ℕ) (a b : DsdvAgent) : Prop where
  kept : Kept c net i b
  onward : Onward a b

theorem Good.refl (kept : Kept c net i a) : Good c net i a a := ⟨kept, .refl a⟩

theorem Good.trans {m : DsdvAgent} (first : Good c net i a m) (second : Good c net i m b) : Good c net i a b :=
  ⟨second.kept, first.onward.trans second.onward⟩

/-- An entry that keeps its route. -/
theorem Good.same (kept : Kept c net i a) (found : a.getEntry d = some e) (same : DsdvAgent.SameRoute e x) (queue : QueueOk c x) :
    Good c net i a (a.addEntry x) := by
  refine ⟨kept.addEntry ((kept.entry found).same same queue), .addEntry fun e' found' => ?_⟩
  rw [same.dst, getEntry_dst found, found] at found'
  cases Option.some.inj found'
  exact same.route ▸ .refl e.route

/-- A new entry. -/
theorem Good.fresh (kept : Kept c net i a) (absent : a.getEntry x.dst = none) (ok : EntryOk c net i a.seqno x) :
    Good c net i a (a.addEntry x) :=
  ⟨kept.addEntry ok, .addEntry fun e found => by rw [absent] at found; cases found⟩

section Data

/-- A new entry without a route, in which a packet waits. -/
theorem EntryOk.waiting {seqno dst : ℕ} (dst' : x.dst = dst) (metric : x.metric = big) (seqnum : x.seqnum = 0) (queue : QueueOk c x) :
    EntryOk c net i seqno x where
  small := Nat.le_of_eq metric
  bounded := by omega
  even finite := absurd metric finite
  own _ := ⟨by omega, fun finite => absurd metric finite⟩
  supported _ finite := absurd metric finite
  queue := queue

theorem forwardPacket_good {dst : ℕ} {p : DsdvData} (kept : Kept c net i a) (towards : p.daddr = some dst) :
    Good c net i a (forwardPacket c a now dst p).1 := by
  unfold forwardPacket
  split_ifs with outside
  · split
    · exact .refl kept
    · split <;> exact .refl kept
  · have inside : c.diffSubnet dst = false := Bool.eq_false_iff.mpr outside
    split
    · rename_i prte found
      split_ifs with valid
      · exact .refl kept
      · have here := getEntry_dst found
        refine .same kept found ⟨rfl, rfl⟩ fun q waiting => ?_
        cases Option.some.inj waiting
        refine ⟨not_not.mp valid, here.symm ▸ inside, fun p' member => ?_⟩
        rcases mem_enque member with old | new
        · cases queued : prte.q with
          | none =>
            rw [queued] at old
            cases old
          | some q =>
            rw [queued] at old
            exact ((kept.entry found).queue q queued).2.2 p' old
        · rw [new, towards]
          exact congrArg some here.symm
    · rename_i absent
      refine .fresh kept absent (.waiting rfl rfl rfl fun q waiting => ?_)
      cases Option.some.inj waiting
      refine ⟨rfl, inside, fun p' member => ?_⟩
      rw [List.mem_singleton.mp member]
      exact towards

theorem recvData_good {p : DsdvData} (kept : Kept c net i a) : Good c net i a (recvData c a now p).1 := by
  have routed (p' : DsdvData) : Good c net i a (routeData c a now p').1 := by
    unfold routeData
    cases towards : p'.daddr with
    | none => exact .refl kept
    | some dst => exact forwardPacket_good kept towards
  unfold recvData
  split_ifs
  · exact routed _
  · exact .refl kept
  · exact .refl kept
  · exact routed _

end Data

section Timeout

theorem lost_good (ok : EntryOk c net i a.seqno e) (valid : e.metric ≠ big) :
    EntryOk c net i a.seqno (e.lost now) ∧ RouteOrder.AtLeast e.route (e.lost now).route := by
  have even := ok.even valid
  have bounded := ok.bounded
  have next : (e.seqnum + 1) % 2 ^ 32 = e.seqnum + 1 := by omega
  have seqnum : (e.lost now).seqnum = e.seqnum + 1 := next
  constructor
  · refine ⟨le_rfl, by omega, fun finite => absurd rfl finite, fun own => ?_, fun _ finite => absurd rfl finite, fun q waiting => ?_⟩
    · exact ⟨by have less := (ok.own own).2 valid; omega, fun finite => absurd rfl finite⟩
    · exact absurd (ok.queue q waiting).1 valid
  · refine Or.inl ?_
    dsimp only [RtableEnt.route]
    omega

theorem timeout_good {dest : ℕ} (kept : Kept c net i a) : Good c net i a (a.timeout now dest) := by
  let f (pr2 : RtableEnt) : RtableEnt :=
    let pr2' := if pr2.hop = dest ∧ pr2.metric ≠ big then pr2.lost now else pr2
    if pr2.dst = dest then { pr2' with timeoutEvent := false } else pr2'
  have dst (e : RtableEnt) : (f e).dst = e.dst := by
    dsimp only [f]
    split_ifs <;> rfl
  have each (e : RtableEnt) (member : e ∈ a.table) : EntryOk c net i a.seqno (f e) ∧ RouteOrder.AtLeast e.route (f e).route := by
    have ok := kept.entries e member
    have marked : ∀ e', EntryOk c net i a.seqno e' ∧ RouteOrder.AtLeast e.route e'.route →
        EntryOk c net i a.seqno { e' with timeoutEvent := false } ∧ RouteOrder.AtLeast e.route { e' with timeoutEvent := false }.route :=
      fun e' good => ⟨good.1.same ⟨rfl, rfl⟩ good.1.queue, good.2⟩
    dsimp only [f]
    split_ifs with here lost lost
    · exact marked _ (lost_good ok lost.2)
    · exact marked e ⟨ok, .refl e.route⟩
    · exact lost_good ok lost.2
    · exact ⟨ok, .refl e.route⟩
  exact ⟨kept.map dst fun e member => (each e member).1, .map dst fun e member => (each e member).2⟩

end Timeout

section Update

/-- The agent backs what it tells others of a route. -/
structure Offered (i : ℕ) (a : DsdvAgent) (u : DsdvUpdate) : Prop where
  saddr : u.saddr = i
  distinct : (u.adverts.map Advert.dst).Nodup
  small : ∀ ad ∈ u.adverts, ad.metric ≤ big ∧ ad.seqnum < 2 ^ 32
  backed : ∀ ad ∈ u.adverts, ad.metric ≠ big → ad.seqnum % 2 = 0 ∧
    (ad.dst = i ∨ ∃ e, a.getEntry ad.dst = some e ∧ RouteOrder.Fresher e.route ad.seqnum (ad.metric + 1))

theorem selfEntry_good (kept : Kept c net i a) (room : a.seqno + 2 < 2 ^ 32) :
    Good c net i a (({ a with seqno := a.seqno + 2 } : DsdvAgent).addEntry (selfEntry { a with seqno := a.seqno + 2 } now)) := by
  have even := kept.even
  have myaddr := kept.myaddr
  have own : (selfEntry { a with seqno := a.seqno + 2 } now).seqnum = a.seqno + 2 := Nat.mod_eq_of_lt room
  have raised : Kept c net i { a with seqno := a.seqno + 2 } := by
    refine ⟨myaddr, by dsimp only; omega, room, kept.sorted, fun e member => ?_⟩
    have ok := kept.entries e member
    refine ⟨ok.small, ok.bounded, ok.even, fun here => ?_, ok.supported, ok.queue⟩
    have bounds := ok.own here
    exact ⟨by dsimp only; omega, fun valid => by have less := bounds.2 valid; dsimp only; omega⟩
  refine ⟨raised.addEntry ⟨Nat.zero_le big, by rw [own]; exact room, fun _ => by rw [own]; omega, fun _ => ?_, fun other => ?_, nofun⟩,
    ⟨Nat.le_add_right _ _, fun d e found => ?_⟩⟩
  · exact ⟨by rw [own]; exact Nat.le_add_right _ 1, fun _ => by rw [own]⟩
  · exact absurd myaddr other
  · rw [getEntry_addEntry]
    split_ifs with here
    · refine ⟨_, rfl, Or.inl ?_⟩
      have mine : e.dst = i := (getEntry_dst found).trans (here.trans myaddr)
      have less := ((kept.entry found).own mine).1
      have new : (selfEntry { a with seqno := a.seqno + 2 } now).route.seqno = a.seqno + 2 := own
      have old : e.route.seqno = e.seqnum := rfl
      omega
    · exact ⟨e, found, .refl e.route⟩

theorem makeUpdate_good {periodic : Bool} {result : DsdvAgent × Option DsdvUpdate} (kept : Kept c net i a)
    (room : (periodic || a.muchChanged now) = true → a.seqno + 2 < 2 ^ 32) (made : a.makeUpdate now periodic = some result) :
    Good c net i a result.1 ∧ ∀ u, result.2 = some u → Offered i result.1 u := by
  unfold makeUpdate at made
  dsimp only at made
  generalize (periodic || a.muchChanged now) = periodic at made room
  obtain ⟨m, current, good⟩ : ∃ m, (if periodic = true then
      ({ a with seqno := a.seqno + 2 } : DsdvAgent).addEntry (selfEntry { a with seqno := a.seqno + 2 } now) else a) = m ∧
      Good c net i a m := by
    split_ifs with full
    · exact ⟨_, rfl, selfEntry_good kept (room full)⟩
    · exact ⟨a, rfl, .refl kept⟩
  rw [current] at made
  split_ifs at made
  · cases Option.some.inj made
    exact ⟨good, fun u sent => absurd sent (Option.some_ne_none u).symm⟩
  unfold asserting at made
  split_ifs at made
  cases Option.some.inj made
  let f (e : RtableEnt) : RtableEnt := if e.advertised now periodic = true then e.afterAdvert periodic else e
  have same (e : RtableEnt) : DsdvAgent.SameRoute e (f e) ∧ (f e).q = e.q := by
    dsimp only [f]
    split_ifs <;> exact ⟨⟨rfl, rfl⟩, rfl⟩
  have noted : Good c net i m { m with table := m.table.map f } := by
    refine ⟨good.kept.map (fun e => (same e).1.dst) fun e member => ?_, .map (fun e => (same e).1.dst) fun e _ => ?_⟩
    · have ok := good.kept.entries e member
      exact ok.same (same e).1 (queueOk_same ok.queue (same e).1 (same e).2)
    · rw [(same e).1.route]
      exact .refl e.route
  refine ⟨good.trans noted, fun u given => ?_⟩
  cases Option.some.inj given
  refine ⟨good.kept.myaddr, ?_, fun ad member => ?_, fun ad member valid => ?_⟩
  · refine List.Nodup.sublist ((List.take_sublist _ _).map _) ?_
    rw [List.map_map]
    have below : ((m.table.filter (RtableEnt.advertised now periodic)).map RtableEnt.dst).Pairwise (· < ·) := by
      rw [List.pairwise_map]
      exact good.kept.sorted.sublist (List.filter_sublist)
    exact below.imp fun less => Nat.ne_of_lt less
  · obtain ⟨e, inside, made⟩ := List.mem_map.mp (List.mem_of_mem_take member)
    subst made
    have ok := good.kept.entries e (List.mem_filter.mp inside).1
    exact ⟨ok.small, ok.bounded⟩
  · obtain ⟨e, inside, made⟩ := List.mem_map.mp (List.mem_of_mem_take member)
    subst made
    have inTable := (List.mem_filter.mp inside).1
    have ok := good.kept.entries e inTable
    refine ⟨ok.even valid, Or.inr ⟨f e, ?_, Or.inr ⟨?_, ?_⟩⟩⟩
    · rw [getEntry_map f fun e => (same e).1.dst, getEntry_of_mem good.kept.sorted inTable, Option.map_some]
    · rw [(same e).1.route]
      rfl
    · rw [(same e).1.route]
      exact Nat.lt_succ_self e.metric

theorem awaitNeighbor_good {saddr : ℕ} (kept : Kept c net i a) (other : saddr ≠ i) :
    Good c net i a (awaitNeighbor c a now saddr) := by
  unfold awaitNeighbor
  cases found : a.getEntry saddr with
  | some prte => exact .same kept found ⟨rfl, rfl⟩ (kept.entry found).queue
  | none =>
    refine .fresh kept found ⟨(by decide : 1 ≤ big), (by decide : 0 < 2 ^ 32), fun _ => rfl, fun own => absurd own other, fun _ _ => Or.inl rfl, nofun⟩

theorem processed_good {saddr : ℕ} {ad : Advert} (kept : Kept c net i a) (ok : AdvertOk net saddr ad)
    (processed : Processed c saddr ad a b) (other : b ≠ a → ad.dst ≠ i) : Good c net i a b := by
  cases processed with
  | kept => exact .refl kept
  | same e x found same queue => exact .same kept found same (queueOk_same (kept.entry found).queue same queue)
  | learned x learned queue better =>
    have metric : x.metric = offered ad := congrArg RouteOrder.Route.hops learned.route
    have seqnum : x.seqnum = ad.seqnum := congrArg RouteOrder.Route.seqno learned.route
    have hop : x.hop = saddr := congrArg RouteOrder.Route.nexthop learned.route
    have valid : x.metric ≠ big → ad.metric ≠ big ∧ x.metric = ad.metric + 1 := by
      rw [metric]
      unfold offered
      split_ifs with finite
      · exact fun _ => ⟨finite, rfl⟩
      · exact fun contradiction => absurd (not_not.mp finite) contradiction
    have bound : x.metric ≤ big := by
      have small := ok.small
      rw [metric]
      unfold offered
      split_ifs with finite
      · omega
      · exact small
    by_cases changed : a.addEntry x = a
    · rw [changed]
      exact .refl kept
    · have remote : x.dst ≠ i := learned.dst ▸ other changed
      refine ⟨kept.addEntry ⟨bound, seqnum ▸ ok.bounded, fun finite => seqnum ▸ ok.even (valid finite).1, fun own => absurd own remote,
        fun _ finite => ?_, queue⟩, .addEntry (learned.dst ▸ better)⟩
      obtain ⟨given, next⟩ := valid finite
      rw [learned.dst, seqnum, next, hop]
      exact ok.supports given

theorem getEntry_processed {saddr : ℕ} {ad : Advert} (processed : Processed c saddr ad a b) {d : ℕ} (other : d ≠ ad.dst) :
    b.getEntry d = a.getEntry d := by
  cases processed with
  | kept => rfl
  | same e x found same queue =>
    rw [getEntry_addEntry, if_neg fun here => other (here.trans (same.dst.trans (getEntry_dst found)))]
  | learned x learned queue better => rw [getEntry_addEntry, if_neg fun here => other (here.trans learned.dst)]

theorem processAdverts_good {saddr : ℕ} {ads : List Advert} {result : DsdvAgent × List DsdvPacket} (kept : Kept c net i a)
    (distinct : (ads.map Advert.dst).Nodup) (ok : ∀ ad ∈ ads, AdvertOk net saddr ad)
    (spares : ∀ ad ∈ ads, ∀ e ∈ a.getEntry ad.dst, ¬ReStores e ad) (done : processAdverts c a now saddr ads = some result) :
    Good c net i a result.1 := by
  induction ads generalizing a result with
  | nil =>
    cases Option.some.inj done
    exact .refl kept
  | cons ad rest ih =>
    obtain ⟨first, processed, more⟩ := Option.bind_eq_some_iff.mp done
    obtain ⟨last, later, joined⟩ := Option.bind_eq_some_iff.mp more
    cases Option.some.inj joined
    obtain ⟨away, distinct'⟩ := List.nodup_cons.mp distinct
    obtain ⟨okFirst, okRest⟩ := List.forall_mem_cons.mp ok
    obtain ⟨spareFirst, spareRest⟩ := List.forall_mem_cons.mp spares
    have small : offered ad ≤ big := by
      have bound := okFirst.small
      unfold offered
      split_ifs <;> omega
    obtain ⟨kind, remote⟩ := processAdvert_spec (fun e found => (kept.entry found).queue) spareFirst small processed
    have good : Good c net i a first.1 := processed_good kept okFirst kind (kept.myaddr ▸ remote)
    have spared : ∀ ad' ∈ rest, ∀ e ∈ first.1.getEntry ad'.dst, ¬ReStores e ad' := fun ad' member e found => by
      have other : ad'.dst ≠ ad.dst := fun same => away (same ▸ List.mem_map_of_mem member)
      rw [Option.mem_def, getEntry_processed kind other] at found
      exact spareRest ad' member e found
    have rest := ih good.kept distinct' okRest spared later
    exact good.trans rest

end Update

section Run

/-- What an event must not do: make the update that wraps the sequence number, or bring a destination that `ReStores` its route. -/
def SparesRoutes (a : DsdvAgent) (now : ℚ) : DsdvAgent.Event → Prop
  | .update u => ∀ ad ∈ u.adverts, ∀ e ∈ a.getEntry ad.dst, ¬ReStores e ad
  | .periodic => a.seqno + 2 < 2 ^ 32
  | .trigger => a.muchChanged now = true → a.seqno + 2 < 2 ^ 32
  | .data _ | .lostLink _ | .timeout _ => True

instance SparesRoutes.decidable (a : DsdvAgent) (now : ℚ) : ∀ event, Decidable (SparesRoutes a now event)
  | .update u => inferInstanceAs (Decidable (∀ ad ∈ u.adverts, ∀ e ∈ a.getEntry ad.dst, ¬ReStores e ad))
  | .periodic => inferInstanceAs (Decidable (a.seqno + 2 < 2 ^ 32))
  | .trigger => inferInstanceAs (Decidable (a.muchChanged now = true → a.seqno + 2 < 2 ^ 32))
  | .data _ | .lostLink _ | .timeout _ => isTrue trivial

def RoutesSpared (net : DsdvNetwork) (s : ℚ × DsdvStep) : Prop :=
  ∀ happens ∈ net.event s.2, SparesRoutes (net.node happens.1) s.1 happens.2

instance (net : DsdvNetwork) (s : ℚ × DsdvStep) : Decidable (RoutesSpared net s) :=
  inferInstanceAs (Decidable (∀ happens ∈ net.event s.2, _))

/-- The outcome of an event, with what is sent. -/
structure Outcome (c : DsdvConfig) (net : DsdvNetwork) (i : ℕ) (a : DsdvAgent) (result : DsdvAgent × List DsdvPacket) : Prop where
  good : Good c net i a result.1
  sends : ∀ u, .update u ∈ result.2 → Offered i result.1 u

theorem forwardPacket_sends {dst : ℕ} {p : DsdvData} {u : DsdvUpdate} : .update u ∉ (forwardPacket c a now dst p).2 := by
  intro member
  unfold forwardPacket at member
  split_ifs at member
  · split at member
    · cases List.mem_singleton.mp member
    · split at member
      · cases List.mem_singleton.mp member
      · cases member
  · split at member
    · split_ifs at member
      · cases List.mem_singleton.mp member
      · cases member
    · cases member

theorem recvData_sends {p : DsdvData} {u : DsdvUpdate} : .update u ∉ (recvData c a now p).2 := by
  have routed (p' : DsdvData) : .update u ∉ (routeData c a now p').2 := by
    unfold routeData
    cases p'.daddr with
    | some dst => exact forwardPacket_sends
    | none =>
      intro member
      dsimp only at member
      split_ifs at member
      · cases List.mem_singleton.mp member
      · cases member
  unfold recvData
  split_ifs
  · exact routed _
  · exact List.not_mem_nil
  · exact List.not_mem_nil
  · exact routed _

theorem drain_sends {dst turns : ℕ} {result : DsdvAgent × List DsdvPacket} {u : DsdvUpdate} (drained : drain c now dst turns a = some result) :
    .update u ∉ result.2 := by
  induction turns generalizing a result with
  | zero => cases drained
  | succ turns ih =>
    rw [drain] at drained
    split at drained
    · split at drained
      · obtain ⟨last, later, joined⟩ := Option.bind_eq_some_iff.mp drained
        cases Option.some.inj joined
        exact fun member => (List.mem_append.mp member).elim recvData_sends (ih later)
      · cases Option.some.inj drained
        exact List.not_mem_nil
      · cases Option.some.inj drained
        exact List.not_mem_nil
    · cases Option.some.inj drained
      exact List.not_mem_nil

theorem processAdvert_sends {saddr : ℕ} {ad : Advert} {result : DsdvAgent × List DsdvPacket} {u : DsdvUpdate}
    (done : processAdvert c a now saddr ad = some result) : .update u ∉ result.2 := by
  unfold processAdvert asserting at done
  dsimp only at done
  split_ifs at done
  · cases Option.some.inj done
    exact List.not_mem_nil
  · unfold flush at done
    split at done
    · split_ifs at done
      · obtain ⟨drained, emptied, same⟩ := Option.map_eq_some_iff.mp done
        subst same
        have silent : .update u ∉ drained.2 := drain_sends emptied
        exact silent
      · cases Option.some.inj done
        exact List.not_mem_nil
    · cases Option.some.inj done
      exact List.not_mem_nil

theorem processAdverts_sends {saddr : ℕ} {ads : List Advert} {result : DsdvAgent × List DsdvPacket} {u : DsdvUpdate}
    (done : processAdverts c a now saddr ads = some result) : .update u ∉ result.2 := by
  induction ads generalizing a result with
  | nil =>
    cases Option.some.inj done
    exact List.not_mem_nil
  | cons ad rest ih =>
    obtain ⟨first, processed, more⟩ := Option.bind_eq_some_iff.mp done
    obtain ⟨last, later, joined⟩ := Option.bind_eq_some_iff.mp more
    cases Option.some.inj joined
    exact fun member => (List.mem_append.mp member).elim (processAdvert_sends processed) (ih later)

theorem sends_outgoing {u : Option DsdvUpdate} (offers : ∀ u', u = some u' → Offered i b u') :
    ∀ u', .update u' ∈ outgoing u → Offered i b u' := by
  intro u' member
  obtain ⟨given, inside, same⟩ := List.mem_map.mp member
  cases same
  exact offers u' (Option.mem_toList.mp inside)

theorem Good.lasttup {t : ℚ} (good : Good c net i a b) : Good c net i a { b with lasttup := t } :=
  ⟨⟨good.kept.myaddr, good.kept.even, good.kept.bounded, good.kept.sorted, good.kept.entries⟩, ⟨good.onward.seqno, good.onward.entries⟩⟩

theorem Offered.lasttup {t : ℚ} {u : DsdvUpdate} (offered : Offered i b u) : Offered i { b with lasttup := t } u :=
  ⟨offered.saddr, offered.distinct, offered.small, offered.backed⟩

theorem handle_outcome {event : DsdvAgent.Event} {result : DsdvAgent × List DsdvPacket} (kept : Kept c net i a)
    (received : ∀ u, event = .update u → UpdateOk net u ∧ u.saddr ≠ i) (spares : SparesRoutes a now event)
    (done : handle c a now event = some result) : Outcome c net i a result := by
  cases event with
  | update u =>
    obtain ⟨ok, other⟩ := received u rfl
    rw [DsdvAgent.handle, processUpdate] at done
    split_ifs at done
    · cases Option.some.inj done
      exact ⟨.refl kept, fun u member => absurd member List.not_mem_nil⟩
    · obtain ⟨processed, each, same⟩ := Option.map_eq_some_iff.mp done
      subst same
      have good : Good c net i a processed.1 := processAdverts_good kept ok.distinct ok.adverts spares each
      refine ⟨good.trans (awaitNeighbor_good good.kept other), fun u' member => ?_⟩
      have silent : .update u' ∉ processed.2 := processAdverts_sends each
      exact absurd member silent
  | data p =>
    cases Option.some.inj done
    exact ⟨recvData_good kept, fun u member => absurd member recvData_sends⟩
  | lostLink p =>
    cases Option.some.inj done
    unfold DsdvAgent.lostLink
    split_ifs
    · exact ⟨.refl kept, fun u member => absurd member List.not_mem_nil⟩
    · split
      · exact ⟨.refl kept, fun u member => absurd member List.not_mem_nil⟩
      · refine ⟨?_, fun u member => absurd member recvData_sends⟩
        rename_i prte found
        split_ifs
        · have timed : Good c net i a (a.timeout now prte.dst) := timeout_good kept
          exact timed.trans (recvData_good timed.kept)
        · exact recvData_good kept
  | periodic =>
    obtain ⟨made, update, same⟩ := Option.map_eq_some_iff.mp done
    subst same
    obtain ⟨good, offers⟩ := makeUpdate_good kept (fun _ => spares) update
    exact ⟨good.lasttup, fun u member => (sends_outgoing offers u member).lasttup⟩
  | trigger =>
    rw [DsdvAgent.handle] at done
    split_ifs at done
    · cases Option.some.inj done
      exact ⟨.refl kept, fun u member => absurd member List.not_mem_nil⟩
    · obtain ⟨made, update, same⟩ := Option.map_eq_some_iff.mp done
      subst same
      obtain ⟨good, offers⟩ := makeUpdate_good kept (fun changed => spares (by rwa [Bool.false_or] at changed)) update
      exact ⟨good.lasttup, fun u member => (sends_outgoing offers u member).lasttup⟩
  | timeout dest =>
    rw [DsdvAgent.handle] at done
    split at done
    · cases Option.some.inj done
      refine ⟨?_, fun u member => absurd member List.not_mem_nil⟩
      split_ifs
      · exact timeout_good kept
      · exact .refl kept
    · cases Option.some.inj done
      exact ⟨.refl kept, fun u member => absurd member List.not_mem_nil⟩

/-- The agents keep their tables, and the sent updates are backed by their senders. -/
structure Holds (c : ℕ → DsdvConfig) (net : DsdvNetwork) : Prop where
  kept : ∀ i, Kept (c i) net i (net.node i)
  updates : ∀ u, .update u ∈ net.sent → UpdateOk net u

theorem after_node_self {result : DsdvAgent × List DsdvPacket} : (net.after i result).node i = result.1 := Function.update_self ..

theorem after_node_other {j : ℕ} {result : DsdvAgent × List DsdvPacket} (other : j ≠ i) : (net.after i result).node j = net.node j :=
  Function.update_of_ne other ..

theorem grows_after {result : DsdvAgent × List DsdvPacket} (onward : Onward (net.node i) result.1) (d : ℕ) :
    RouteOrder.Grows (net.view d) ((net.after i result).view d) := by
  intro j r found
  obtain ⟨e, lookup, same⟩ := Option.map_eq_some_iff.mp found
  subst same
  unfold view
  by_cases here : j = i
  · rw [here] at lookup ⊢
    obtain ⟨e', lookup', atLeast⟩ := onward.entries d e lookup
    exact ⟨e'.route, by rw [after_node_self, lookup', Option.map_some], atLeast⟩
  · exact ⟨e.route, by rw [after_node_other here, lookup, Option.map_some], .refl e.route⟩

theorem Kept.grows {net' : DsdvNetwork} (kept : Kept c net i a) (grows : ∀ d, RouteOrder.Grows (net.view d) (net'.view d)) :
    Kept c net' i a where
  myaddr := kept.myaddr
  even := kept.even
  bounded := kept.bounded
  sorted := kept.sorted
  entries e member := by
    have ok := kept.entries e member
    exact ⟨ok.small, ok.bounded, ok.even, ok.own, fun other valid => (ok.supported other valid).grows (grows _), ok.queue⟩

theorem Offered.updateOk {u : DsdvUpdate} (offered : Offered i (net.node i) u) : UpdateOk net u where
  distinct := offered.distinct
  adverts ad member := by
    obtain ⟨small, bounded⟩ := offered.small ad member
    refine ⟨small, bounded, fun valid => (offered.backed ad member valid).1, fun valid => ?_⟩
    rw [offered.saddr]
    rcases (offered.backed ad member valid).2 with own | ⟨e, found, fresher⟩
    · exact Or.inl own
    · exact Or.inr ⟨e.route, congrArg (Option.map RtableEnt.route) found, fresher⟩

theorem Holds.after {c : ℕ → DsdvConfig} {result : DsdvAgent × List DsdvPacket} (holds : Holds c net)
    (outcome : Outcome (c i) net i (net.node i) result) : Holds c (net.after i result) := by
  have grows := grows_after outcome.good.onward
  constructor
  · intro j
    by_cases here : j = i
    · rw [here, after_node_self]
      exact outcome.good.kept.grows grows
    · rw [after_node_other here]
      exact (holds.kept j).grows grows
  · intro u member
    rcases List.mem_append.mp member with old | new
    · have ok := holds.updates u old
      refine ⟨ok.distinct, fun ad inside => ?_⟩
      have advert := ok.adverts ad inside
      exact ⟨advert.small, advert.bounded, advert.even, fun valid => (advert.supports valid).grows (grows _)⟩
    · have offered := outcome.sends u new
      have here : (net.after i result).node i = result.1 := after_node_self
      rw [← here] at offered
      exact offered.updateOk

theorem holds_initial {c : ℕ → DsdvConfig} : Holds c initial where
  kept i := by
    refine ⟨rfl, (by decide : 2 % 2 = 0), (by decide : 2 < 2 ^ 32), List.pairwise_singleton _ _, fun e member => ?_⟩
    cases List.mem_singleton.mp member
    exact ⟨Nat.zero_le big, (by decide : 0 % 2 ^ 32 < 2 ^ 32), fun _ => rfl, fun _ => ⟨Nat.zero_le _, fun _ => Nat.zero_le _⟩,
      fun other => absurd rfl other, nofun⟩
  updates u member := absurd member List.not_mem_nil

/-- An update that comes in has been sent, by another node. -/
theorem event_update {s : DsdvStep} {u : DsdvUpdate} (happens : net.event s = some (i, .update u)) :
    .update u ∈ net.sent ∧ u.saddr ≠ i := by
  unfold event at happens
  split at happens
  · rename_i i' k
    split at happens
    · rename_i u' found
      split_ifs at happens with other
      cases happens
      exact ⟨List.mem_of_getElem? found, other⟩
    · split_ifs at happens
      cases happens
    · cases happens
  · cases happens
  · rename_i other
    cases happens
    exact absurd rfl (other u)

theorem step_holds {c : ℕ → DsdvConfig} {s : ℚ × DsdvStep} {next : DsdvNetwork} {out : Unit} (holds : Holds c net)
    (spares : RoutesSpared net s) (step : (machine c).step net s = some (next, out)) :
    Holds c next ∧ ∀ d, RouteOrder.Grows (net.view d) (next.view d) := by
  unfold machine at step
  dsimp only at step
  cases happens : net.event s.2 with
  | none =>
    rw [happens] at step
    cases Option.some.inj step
    exact ⟨holds, fun d i r found => ⟨r, found, .refl r⟩⟩
  | some what =>
    obtain ⟨i, event⟩ := what
    rw [happens] at step
    obtain ⟨result, handled, same⟩ := Option.map_eq_some_iff.mp step
    cases same
    have outcome : Outcome (c i) net i (net.node i) result := by
      refine handle_outcome (holds.kept i) (fun u update => ?_) (spares (i, event) happens) handled
      subst update
      obtain ⟨sent, other⟩ := event_update happens
      exact ⟨holds.updates u sent, other⟩
    exact ⟨holds.after outcome, grows_after outcome.good.onward⟩

/-- A node other than the destination has a valid entry for it with this next hop. -/
def Edge (net : DsdvNetwork) (d i j : ℕ) : Prop := i ≠ d ∧ ∃ e ∈ (net.node i).getEntry d, e.metric ≠ big ∧ e.hop = j

instance (net : DsdvNetwork) (d i j : ℕ) : Decidable (net.Edge d i j) :=
  inferInstanceAs (Decidable (i ≠ d ∧ ∃ e ∈ (net.node i).getEntry d, _))

theorem Holds.acyclic {c : ℕ → DsdvConfig} (holds : Holds c net) (d : ℕ) : Acyclic (net.Edge d) := by
  refine (RouteOrder.acyclic_of_supported (net.view d) d
    (fun i r => i ≠ d ∧ ∃ e, (net.node i).getEntry d = some e ∧ e.metric ≠ big ∧ r = e.route) ?_ ?_ ?_).mono ?_
  · rintro i r ⟨_, e, found, _, rfl⟩
    exact congrArg (Option.map RtableEnt.route) found
  · rintro r ⟨remote, _⟩
    exact remote rfl
  · rintro i r ⟨remote, e, found, valid, rfl⟩
    have supported := ((holds.kept i).entry found).supported ((getEntry_dst found).trans_ne remote.symm) valid
    rwa [getEntry_dst found] at supported
  · rintro i j ⟨remote, e, found, valid, towards⟩
    exact ⟨e.route, ⟨remote, e, found, valid, rfl⟩, towards⟩

/-- No entry of the first network is missing in the second, or has an older sequence number there. -/
def NoOlder (net next : DsdvNetwork) : Prop :=
  ∀ i d e, (net.node i).getEntry d = some e → ∃ e', (next.node i).getEntry d = some e' ∧ e.seqnum ≤ e'.seqnum

/-- In every run that spares the routes no sequence number gets older, and the next hops to a destination have no cycle. -/
theorem run_routesOrdered (c : ℕ → DsdvConfig) (before after : List (ℚ × DsdvStep))
    (spares : (machine c).Along RoutesSpared initial (before ++ after)) (mid last : DsdvNetwork) (outs outs' : List Unit)
    (first : (machine c).run initial before = some (mid, outs)) (second : (machine c).run mid after = some (last, outs')) :
    NoOlder mid last ∧ ∀ d, Acyclic (last.Edge d) := by
  have early : Holds c mid := Machine.run_kept (fun net s next out holds spare step => (step_holds holds spare step).1) holds_initial
    spares.left first
  let Since (net : DsdvNetwork) : Prop := Holds c net ∧ ∀ d, RouteOrder.Grows (mid.view d) (net.view d)
  have kept (net : DsdvNetwork) (s : ℚ × DsdvStep) (next : DsdvNetwork) (out : Unit) (since : Since net) (spare : RoutesSpared net s)
      (step : (machine c).step net s = some (next, out)) : Since next := by
    obtain ⟨holds, grows⟩ := step_holds since.1 spare step
    refine ⟨holds, fun d i r found => ?_⟩
    obtain ⟨r', found', atLeast⟩ := since.2 d i r found
    obtain ⟨r'', found'', atLeast'⟩ := grows d i r' found'
    exact ⟨r'', found'', atLeast.trans atLeast'⟩
  obtain ⟨holds, grows⟩ : Since last :=
    Machine.run_kept kept ⟨early, fun d i r found => ⟨r, found, .refl r⟩⟩ (spares.right first) second
  refine ⟨fun i d e found => ?_, holds.acyclic⟩
  obtain ⟨r', found', atLeast⟩ := grows d i e.route (congrArg (Option.map RtableEnt.route) found)
  obtain ⟨e', lookup, same⟩ := Option.map_eq_some_iff.mp found'
  subst same
  exact ⟨e', lookup, atLeast.elim Nat.le_of_lt fun equal => Nat.le_of_eq equal.1⟩

def sampleConfig (_ : ℕ) : DsdvConfig := ⟨7 / 8, 6, true, fun _ => false, 0⟩

/-- Node 1 gets a route to 0 and node 2 one over 1. -/
def routesRun : List (ℚ × DsdvStep) :=
  [(1, .own 0 .periodic), (2, .deliver 1 0), (20, .own 1 .periodic), (21, .deliver 2 1), (40, .own 2 .periodic)]

/-- Node 1 loses its neighbor 0 and queues a packet of 3. -/
def lostRun : List (ℚ × DsdvStep) := [(50, .own 1 (.timeout 0)), (51, .own 1 (.data ⟨3, some 0, 2, 1, 1⟩))]

theorem run_routesOrdered_sample : ∃ mid last outs outs', (machine sampleConfig).run initial routesRun = some (mid, outs) ∧
    (machine sampleConfig).run mid lostRun = some (last, outs') ∧ NoOlder mid last ∧ ∀ d, Acyclic (last.Edge d) := by
  have succeeds : ((machine sampleConfig).run initial (routesRun ++ lostRun)).isSome = true := by decide +kernel
  obtain ⟨⟨last, joined⟩, run⟩ := Option.isSome_iff_exists.mp succeeds
  obtain ⟨mid, outs, outs', first, second, _⟩ := Machine.run_split run
  exact ⟨mid, last, outs, outs', first, second,
    run_routesOrdered sampleConfig routesRun lostRun (by decide +kernel) mid last outs outs' first second⟩

/-- The update of 2, with the route over 1 from before, reaches 1 only now. -/
def staleRun : List (ℚ × DsdvStep) := [(52, .deliver 1 2)]

theorem stale_loops : ¬∀ (before after : List (ℚ × DsdvStep)) (mid last : DsdvNetwork) (outs outs' : List Unit),
    (machine sampleConfig).run initial before = some (mid, outs) → (machine sampleConfig).run mid after = some (last, outs') →
      NoOlder mid last ∧ ∀ d, Acyclic (last.Edge d) := by
  intro claimed
  have succeeds : ((machine sampleConfig).run initial ((routesRun ++ lostRun) ++ staleRun)).any
      (fun result => decide (result.1.Edge 0 1 2 ∧ result.1.Edge 0 2 1)) = true := by decide +kernel
  obtain ⟨⟨last, joined⟩, run, edges⟩ := (Option.any_eq_true _ _).mp succeeds
  obtain ⟨mid, outs, outs', first, second, _⟩ := Machine.run_split run
  obtain ⟨towards, back⟩ := of_decide_eq_true edges
  exact (claimed _ _ mid last outs outs' first second).2 0 1 (.tail (.single towards) back)

end Run

end DsdvNetwork

end Ns2
