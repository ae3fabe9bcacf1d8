import Ns2.Aodv.Agent

namespace Ns2

/-- A sequence number of a valid route. -/
structure ValidSeqno (seqno : ℕ) : Prop where
  even : seqno % 2 = 0
  small : seqno < 2 ^ 32

/-- Two entries with the same route. -/
structure SameRoute (old new : AodvRtEntry) : Prop where
  dst : new.dst = old.dst
  seqno : new.seqno = old.seqno
  hops : new.hops = old.hops
  nexthop : new.nexthop = old.nexthop
  flags : new.flags = old.flags

/-- A rule for routing table entries that all changes of an entry keep. -/
structure AodvDiscipline where
  /-- What holds of an entry. -/
  Entry : AodvRtEntry → Prop
  /-- What an entry may become. -/
  Le : AodvRtEntry → AodvRtEntry → Prop
  /-- The entry is good enough to offer a route with this sequence number and hop count. -/
  Backs : AodvRtEntry → ℕ → ℕ → Prop
  /-- A route to a destination, with sequence number, hop count and next hop, that is taken from a packet. -/
  Learn : ℕ → ℕ → ℕ → ℕ → Prop
  /-- A sequence number that is taken from a route error. -/
  Err : ℕ → Prop
  /-- An entry that is taken down when a local repair has failed. -/
  GiveUp : AodvRtEntry → Prop
  trans : ∀ rt mid rt', Le rt mid → Le mid rt' → Le rt rt'
  made : ∀ dst, Entry (.make dst)
  same : ∀ rt rt', SameRoute rt rt' → Entry rt → Entry rt' ∧ Le rt rt'
  learned : ∀ rt seqno hopCount nexthop expire, Entry rt → Learn rt.dst seqno hopCount nexthop →
    AODV.isBetter rt seqno hopCount →
      Entry (rt.rtUpdate seqno hopCount nexthop expire) ∧ Le rt (rt.rtUpdate seqno hopCount nexthop expire)
  failed : ∀ rt, Entry rt → rt.flags = .up → Entry rt.raise.rtDown ∧ Le rt rt.raise.rtDown ∧ Err rt.raise.seqno
  reported : ∀ (rt : AodvRtEntry) (seqno : ℕ), Entry rt → Err seqno → rt.flags = .up → rt.seqno ≤ seqno →
    Entry { rt with seqno := seqno }.rtDown ∧ Le rt { rt with seqno := seqno }.rtDown
  repaired : ∀ rt : AodvRtEntry, Entry rt → Entry { rt with flags := .inRepair } ∧ Le rt { rt with flags := .inRepair }
  givenUp : ∀ rt, Entry rt → GiveUp rt → Entry rt.rtDown ∧ Le rt rt.rtDown
  backs : ∀ (rt : AodvRtEntry) (seqno hopCount : ℕ), seqno < rt.seqno ∨ seqno = rt.seqno ∧ rt.hops < hopCount →
    Backs rt seqno hopCount
  backsOn : ∀ rt rt' seqno hopCount, Le rt rt' → Backs rt seqno hopCount → Backs rt' seqno hopCount
  finite : ∀ rt, Entry rt → rt.flags = .up → rt.hops ≠ aodvInfinity
  small : ∀ rt, Entry rt → rt.hops ≤ aodvInfinity
  valid : ∀ rt, Entry rt → rt.hops ≠ aodvInfinity → ValidSeqno rt.seqno
  lost : ∀ rt, Entry rt → rt.flags = .down → rt.hops = aodvInfinity ∧ Err rt.seqno

namespace AODV

variable {a : AODV} {rt old : AodvRtEntry} {d : ℕ}

theorem rtLookup_dst (found : a.rtLookup d = some rt) : rt.dst = d := by
  have holds := List.find?_some found
  exact of_decide_eq_true holds

theorem rtLookup_mem (found : a.rtLookup d = some rt) : rt ∈ a.rtable := List.mem_of_find?_eq_some found

theorem rtLookup_map (f : AodvRtEntry → AodvRtEntry) (same : ∀ rt ∈ a.rtable, (f rt).dst = rt.dst) (d : ℕ) :
    { a with rtable := a.rtable.map f }.rtLookup d = (a.rtLookup d).map f := by
  unfold rtLookup
  dsimp only
  rw [List.find?_map]
  refine congrArg (Option.map f) ?_
  generalize a.rtable = entries at same
  induction entries with
  | nil => rfl
  | cons rt rest ih =>
    obtain ⟨first, others⟩ := List.forall_mem_cons.mp same
    rw [List.find?_cons, List.find?_cons, Function.comp_apply, first, ih others]

theorem rtLookup_rtSet (a : AODV) (rt : AodvRtEntry) (d : ℕ) :
    (a.rtSet rt).rtLookup d = if d = rt.dst then (a.rtLookup d).map fun _ => rt else a.rtLookup d := by
  unfold rtSet
  rw [rtLookup_map _ (fun old _ => by split_ifs with here <;> simp [here])]
  cases found : a.rtLookup d with
  | none => simp
  | some old =>
    have here := rtLookup_dst found
    rw [Option.map_some, here]
    split_ifs <;> rfl

theorem mem_rtSet {rt' : AodvRtEntry} (member : rt' ∈ (a.rtSet rt).rtable) : rt' = rt ∨ rt' ∈ a.rtable := by
  obtain ⟨e, inside, same⟩ := List.mem_map.mp member
  split_ifs at same
  · exact Or.inl same.symm
  · exact Or.inr (same ▸ inside)

theorem rtLookup_rtAdd (a : AODV) (d d' : ℕ) :
    (a.rtAdd d).rtLookup d' = if d' = d then some (.make d) else a.rtLookup d' := by
  unfold rtLookup rtAdd
  rw [List.find?_cons]
  have dst : (AodvRtEntry.make d).dst = d := rfl
  by_cases here : d' = d
  · rw [if_pos here, dst, here, decide_eq_true rfl]
  · rw [if_neg here, dst, decide_eq_false (Ne.symm here)]

end AODV

namespace AodvDiscipline

variable (D : AodvDiscipline)

/-- What an agent keeps. -/
structure Kept (a : AODV) : Prop where
  seqno : ValidSeqno a.seqno
  entries : ∀ rt ∈ a.rtable, D.Entry rt
  queued : ∀ q ∈ a.rqueue, q.1.body.isData = true

/-- An agent before and after some of its routines. -/
structure Onward (a b : AODV) : Prop where
  index : b.index = a.index
  entries : ∀ d rt, a.rtLookup d = some rt → ∃ rt', b.rtLookup d = some rt' ∧ D.Le rt rt'

/-- The agent may offer others a route. -/
def Offers (a : AODV) (dst seqno hopCount : ℕ) : Prop :=
  dst = a.index ∨ ∃ rt, a.rtLookup dst = some rt ∧ D.Backs rt seqno hopCount

/-- A packet that the agent may send. -/
def Sends (a : AODV) (p : AodvPacket) : Prop :=
  match p.body with
  | .request rq => p.saddr = a.index ∧ 1 ≤ p.ttl ∧ rq.hopCount + p.ttl ≤ 31 ∧ ValidSeqno rq.srcSeqno ∧
      D.Offers a rq.src rq.srcSeqno rq.hopCount
  | .reply rp => rp.src = a.index ∧ p.daddr ≠ none ∧ rp.hopCount ≤ aodvInfinity ∧ ValidSeqno rp.dstSeqno ∧
      D.Offers a rp.dst rp.dstSeqno rp.hopCount
  | .error unreachable => ∀ lost ∈ unreachable, D.Err lost.2
  | .hello _ | .data _ => True

/-- The outcome of a routine. -/
structure Good (a : AODV) (result : AODV × List AodvPacket) : Prop where
  kept : D.Kept result.1
  onward : D.Onward a result.1
  sends : ∀ p ∈ result.2, D.Sends result.1 p

variable {D} {a b c : AODV} {p : AodvPacket} {rt old : AodvRtEntry} {out out' : List AodvPacket} {d : ℕ}

theorem Kept.entry (kept : D.Kept a) (found : a.rtLookup d = some rt) : D.Entry rt := kept.entries rt (AODV.rtLookup_mem found)

theorem Kept.refl_le (kept : D.Kept a) (found : a.rtLookup d = some rt) : D.Le rt rt :=
  (D.same rt rt ⟨rfl, rfl, rfl, rfl, rfl⟩ (kept.entry found)).2

theorem Onward.trans (first : D.Onward a b) (second : D.Onward b c) : D.Onward a c where
  index := second.index.trans first.index
  entries d rt found := by
    obtain ⟨mid, found', le⟩ := first.entries d rt found
    obtain ⟨rt', found'', le'⟩ := second.entries d mid found'
    exact ⟨rt', found'', D.trans rt mid rt' le le'⟩

theorem Offers.onward {dst seqno hopCount : ℕ} (offers : D.Offers a dst seqno hopCount) (onward : D.Onward a b) :
    D.Offers b dst seqno hopCount := by
  rcases offers with own | ⟨rt, found, backs⟩
  · exact Or.inl (own.trans onward.index.symm)
  · obtain ⟨rt', found', le⟩ := onward.entries dst rt found
    exact Or.inr ⟨rt', found', D.backsOn rt rt' seqno hopCount le backs⟩

theorem Sends.onward (sends : D.Sends a p) (onward : D.Onward a b) : D.Sends b p := by
  unfold Sends at sends ⊢
  cases body : p.body with
  | request rq =>
    rw [body] at sends
    obtain ⟨saddr, ttl, hops, even, offers⟩ := sends
    exact ⟨saddr.trans onward.index.symm, ttl, hops, even, offers.onward onward⟩
  | reply rp =>
    rw [body] at sends
    obtain ⟨src, daddr, hops, even, offers⟩ := sends
    exact ⟨src.trans onward.index.symm, daddr, hops, even, offers.onward onward⟩
  | error unreachable =>
    rw [body] at sends
    exact sends
  | hello rh => trivial
  | data numForwards => trivial

/-- The same table. -/
theorem Onward.of_eq (kept : D.Kept a) (index : b.index = a.index) (rtable : b.rtable = a.rtable) : D.Onward a b where
  index := index
  entries d rt found := ⟨rt, by rw [← found, AODV.rtLookup, AODV.rtLookup, rtable], kept.refl_le found⟩

theorem Kept.of_eq (kept : D.Kept a) (seqno : ValidSeqno b.seqno) (rtable : b.rtable = a.rtable)
    (queued : ∀ q ∈ b.rqueue, q.1.body.isData = true) : D.Kept b :=
  ⟨seqno, rtable ▸ kept.entries, queued⟩

/-- A change of the agent that its table is not part of. -/
theorem Good.of_eq (kept : D.Kept a) (seqno : ValidSeqno b.seqno) (index : b.index = a.index) (rtable : b.rtable = a.rtable)
    (queued : ∀ q ∈ b.rqueue, q.1.body.isData = true) (sends : ∀ p ∈ out, D.Sends b p) : D.Good a (b, out) :=
  ⟨kept.of_eq seqno rtable queued, .of_eq kept index rtable, sends⟩

theorem Good.idle (kept : D.Kept a) : D.Good a (a, []) := .of_eq kept kept.seqno rfl rfl kept.queued (by simp)

theorem Good.trans (first : D.Good a (b, out)) (second : D.Good b (c, out')) : D.Good a (c, out ++ out') where
  kept := second.kept
  onward := first.onward.trans second.onward
  sends p member := by
    rcases List.mem_append.mp member with early | late
    · exact (first.sends p early).onward second.onward
    · exact second.sends p late

/-- A change of one entry. -/
theorem Good.rtSet (kept : D.Kept a) (found : a.rtLookup rt.dst = some old) (entry : D.Entry rt) (le : D.Le old rt) :
    D.Good a (a.rtSet rt, []) where
  kept := ⟨kept.seqno, fun rt' member => (AODV.mem_rtSet member).elim (fun same => same ▸ entry) (kept.entries rt'),
    kept.queued⟩
  onward := ⟨rfl, fun d rt' found' => by
    rw [AODV.rtLookup_rtSet]
    split_ifs with here
    · subst here
      rw [found] at found'
      cases Option.some.inj found'
      exact ⟨rt, by rw [found, Option.map_some], le⟩
    · exact ⟨rt', found', kept.refl_le found'⟩⟩
  sends := by simp

/-- A change that leaves the route as it is. -/
theorem Good.rtSet_same (kept : D.Kept a) (found : a.rtLookup d = some old) (same : SameRoute old rt) :
    D.Good a (a.rtSet rt, []) := by
  have here : rt.dst = d := same.dst.trans (AODV.rtLookup_dst found)
  obtain ⟨entry, le⟩ := D.same old rt same (kept.entry found)
  exact .rtSet kept (here.symm ▸ found) entry le

theorem Good.rtAdd (kept : D.Kept a) (absent : a.rtLookup d = none) : D.Good a (a.rtAdd d, []) where
  kept := ⟨kept.seqno, List.forall_mem_cons.mpr ⟨D.made d, kept.entries⟩, kept.queued⟩
  onward := ⟨rfl, fun d' rt found => by
    rw [AODV.rtLookup_rtAdd, if_neg]
    · exact ⟨rt, found, kept.refl_le found⟩
    · rintro rfl
      rw [absent] at found
      cases found⟩
  sends := by simp

theorem Good.rtFind (kept : D.Kept a) (d : ℕ) : D.Good a ((a.rtFind d).1, []) := by
  unfold AODV.rtFind
  cases found : a.rtLookup d with
  | none => exact .rtAdd kept found
  | some rt => exact .idle kept

theorem rtLookup_rtFind (a : AODV) (d : ℕ) : (a.rtFind d).1.rtLookup d = some (a.rtFind d).2 := by
  unfold AODV.rtFind
  cases found : a.rtLookup d with
  | none => rw [AODV.rtLookup_rtAdd, if_pos rfl]
  | some rt => exact found

theorem rtLookup_rtFind_ne (a : AODV) (d : ℕ) : ∀ d', d' ≠ d → (a.rtFind d).1.rtLookup d' = a.rtLookup d' := by
  intro d' other
  unfold AODV.rtFind
  cases found : a.rtLookup d with
  | none => rw [AODV.rtLookup_rtAdd, if_neg other]
  | some rt => rfl

end AodvDiscipline

end Ns2
