import Ns2.Library.Asserting
import Ns2.Library.NextChain
import Mathlib.Algebra.Order.Field.Rat

namespace Ns2

/-- The packet buffer of AODV, with what it reads of the packets: `next_`, `ts_` and the destination. -/
structure AodvRqueue where
  head : Option ℕ
  tail : Option ℕ
  len : ℤ
  limit : ℤ
  timeout : ℚ
  next : ℕ → Option ℕ
  ts : ℕ → ℚ
  daddr : ℕ → ℕ

/-- `DROP_RTR_QFULL` and `DROP_RTR_QTIMEOUT`. -/
inductive RtrDrop
  | qfull
  | qtimeout
deriving DecidableEq

inductive RqueueCall
  /-- The packet comes with its destination. -/
  | enque (p dst : ℕ)
  | deque
  | dequeDst (dst : ℕ)
  | find (dst : ℕ)

inductive RqueueAnswer
  | stored (dropped : List (ℕ × RtrDrop))
  | packet (p : Option ℕ)
  | found (there : Bool)
deriving DecidableEq

namespace RqueueAnswer

def returned : RqueueAnswer → List ℕ
  | .packet p => p.toList
  | _ => []

def dropped : RqueueAnswer → List (ℕ × RtrDrop)
  | .stored dropped => dropped
  | _ => []

end RqueueAnswer

namespace AodvRqueue

/-- The constructor, with whatever the fields of the packets are. -/
def make (next : ℕ → Option ℕ) (ts : ℕ → ℚ) (daddr : ℕ → ℕ) : AodvRqueue := ⟨none, none, 0, 64, 30, next, ts, daddr⟩

/-- The loop of `verifyQueue`: how many packets it counts, and the last. -/
def countFrom (next : ℕ → Option ℕ) : ℕ → Option ℕ → Option ℕ → ℤ → Option (ℤ × Option ℕ)
  | 0, _, _, _ => none
  | _ + 1, none, prev, cnt => some (cnt, prev)
  | fuel + 1, some p, _, cnt => countFrom next fuel (next p) (some p) (cnt + 1)

/-- A list of more than `len_` packets does not pass, if it ends at all. -/
def verifyQueue (q : AodvRqueue) : Option AodvRqueue := do
  let counted ← countFrom q.next (q.len.toNat + 1) q.head none 0
  asserting (counted.1 = q.len ∧ counted.2 = q.tail) (some q)

/-- The loop of `findPacketWithDst` and of `findAgedPacket`: a packet and the one before it. -/
def findFrom (next : ℕ → Option ℕ) (test : ℕ → Bool) : ℕ → Option ℕ → Option ℕ → Option (Option ℕ × Option ℕ)
  | 0, _, _ => none
  | _ + 1, none, prev => some (none, prev)
  | fuel + 1, some p, prev => if test p then some (some p, prev) else findFrom next test fuel (next p) (some p)

def findPacketWithDst (q : AodvRqueue) (dst : ℕ) : Option (Option ℕ × Option ℕ) :=
  findFrom q.next (fun p => q.daddr p = dst) (q.len.toNat + 1) q.head none

def findAgedPacket (q : AodvRqueue) (now : ℚ) : Option (Option ℕ × Option ℕ) :=
  findFrom q.next (fun p => q.ts p < now) (q.len.toNat + 1) q.head none

def removeHead (q : AodvRqueue) : Option (Option ℕ × AodvRqueue) := do
  let head ← if q.head = q.tail then some none else q.head.map q.next
  let tail := if q.head = q.tail then none else q.tail
  return (q.head, { q with head := head, tail := tail, len := if q.head = none then q.len else q.len - 1 })

/-- How `deque(dst)` and `purge` take a packet out that they have found behind `prev`. -/
def unlink (q : AodvRqueue) (p : ℕ) (prev : Option ℕ) : Option AodvRqueue :=
  asserting (q.head = some p ∧ prev = none ∨ prev.bind q.next = some p) <|
    if q.head = some p then q.removeHead.map Prod.snd
    else
      prev.map fun prev =>
        if q.tail = some p then { q with next := Function.update q.next prev none, tail := some prev, len := q.len - 1 }
        else { q with next := Function.update q.next prev (q.next p), len := q.len - 1 }

/-- The loop of `purge`: what has timed out is taken out of the list, and nothing else becomes of it. -/
def purgeFrom (now : ℚ) : ℕ → AodvRqueue → Option AodvRqueue
  | 0, _ => none
  | fuel + 1, q => do
    let found ← q.findAgedPacket now
    match found.1 with
    | none => some q
    | some p => purgeFrom now fuel (← (← q.unlink p found.2).verifyQueue)

def purge (q : AodvRqueue) (now : ℚ) : Option AodvRqueue := purgeFrom now (q.len.toNat + 1) q

/-- What `enque` drops if the queue is full. -/
def makeRoom (q : AodvRqueue) (now : ℚ) : Option (AodvRqueue × List (ℕ × RtrDrop)) :=
  if q.len = q.limit then do
    let removed ← q.removeHead
    let p0 ← removed.1
    return (removed.2, [(p0, if removed.2.ts p0 > now then .qfull else .qtimeout)])
  else some (q, [])

/-- The packet is put at the end of the list. -/
def link (q : AodvRqueue) (p : ℕ) : Option AodvRqueue :=
  if q.head = none then some { q with head := some p, tail := some p, len := q.len + 1 }
  else q.tail.map fun tail => { q with next := Function.update q.next tail (some p), tail := some p, len := q.len + 1 }

def enque (q : AodvRqueue) (now : ℚ) (p : ℕ) : Option (AodvRqueue × List (ℕ × RtrDrop)) := do
  let q ← q.purge now
  let (q, dropped) ← makeRoom { q with next := Function.update q.next p none, ts := Function.update q.ts p (now + q.timeout) } now
  return (← (← q.link p).verifyQueue, dropped)

def deque (q : AodvRqueue) (now : ℚ) : Option (AodvRqueue × Option ℕ) := do
  let (p, q) ← (← q.purge now).removeHead
  return (← q.verifyQueue, p)

def dequeDst (q : AodvRqueue) (now : ℚ) (dst : ℕ) : Option (AodvRqueue × Option ℕ) := do
  let q ← q.purge now
  let found ← q.findPacketWithDst dst
  match found.1 with
  | none => return (q, none)
  | some p => return (← (← q.unlink p found.2).verifyQueue, some p)

def find (q : AodvRqueue) (dst : ℕ) : Option Bool := (q.findPacketWithDst dst).map fun found => found.1.isSome

def call (q : AodvRqueue) (now : ℚ) : RqueueCall → Option (AodvRqueue × RqueueAnswer)
  | .enque p dst => (enque { q with daddr := Function.update q.daddr p dst } now p).map fun done => (done.1, .stored done.2)
  | .deque => (q.deque now).map fun done => (done.1, .packet done.2)
  | .dequeDst dst => (q.dequeDst now dst).map fun done => (done.1, .packet done.2)
  | .find dst => (q.find dst).map fun there => (q, .found there)

/-- The packets of the list, as long as `len_` says. -/
def packets (q : AodvRqueue) : List ℕ := NextChain.follow q.next q.len.toNat q.head

/-- `head_`, `tail_` and `len_` describe this list, and it ends. -/
structure Holds (q : AodvRqueue) (l : List ℕ) : Prop where
  path : NextChain.Path q.next q.head l none
  tail : q.tail = l.getLast?
  len : q.len = l.length

/-- The packets that have not timed out. -/
def fresh (q : AodvRqueue) (now : ℚ) (l : List ℕ) : List ℕ := l.filter fun p => ¬q.ts p < now

/-- What is the same while packets are taken out. -/
structure SameFields (q r : AodvRqueue) : Prop where
  limit : r.limit = q.limit
  timeout : r.timeout = q.timeout
  ts : r.ts = q.ts
  daddr : r.daddr = q.daddr

variable {q r : AodvRqueue} {l front back : List ℕ} {next : ℕ → Option ℕ} {test : ℕ → Bool} {now : ℚ} {p dst fuel : ℕ} {a prev : Option ℕ}
  {cnt : ℤ}

theorem SameFields.refl (q : AodvRqueue) : SameFields q q := ⟨rfl, rfl, rfl, rfl⟩

theorem SameFields.trans {s : AodvRqueue} (first : SameFields q r) (second : SameFields r s) : SameFields q s :=
  ⟨second.limit.trans first.limit, second.timeout.trans first.timeout, second.ts.trans first.ts, second.daddr.trans first.daddr⟩

theorem Holds.packets (holds : q.Holds l) : q.packets = l := holds.path.follow (by have len := holds.len; omega)

theorem Holds.unique {k : List ℕ} (holds : q.Holds l) (again : q.Holds k) : k = l := again.path.unique holds.path

theorem countFrom_eq (path : NextChain.Path next a l none) (enough : l.length < fuel) :
    countFrom next fuel a prev cnt = some (cnt + l.length, l.getLast?.or prev) := by
  induction l generalizing a prev cnt fuel with
  | nil =>
    obtain ⟨fuel, rfl⟩ : ∃ n, fuel = n + 1 := ⟨fuel - 1, by rw [List.length_nil] at enough; omega⟩
    rw [show a = none from path, countFrom, List.length_nil, List.getLast?_nil, Option.none_or]
    exact congrArg (fun n => some (n, prev)) (add_zero cnt).symm
  | cons p l ih =>
    obtain ⟨fuel, rfl⟩ : ∃ n, fuel = n + 1 := ⟨fuel - 1, by rw [List.length_cons] at enough; omega⟩
    rw [path.1, countFrom, ih path.2 (Nat.lt_of_succ_lt_succ enough), List.length_cons, List.getLast?_cons]
    cases l.getLast? <;> simp <;> omega

theorem Holds.verifyQueue (holds : q.Holds l) : q.verifyQueue = some q := by
  have len := holds.len
  unfold AodvRqueue.verifyQueue
  rw [countFrom_eq holds.path (by omega), Option.bind_eq_bind, Option.bind_some, zero_add, Option.or_none]
  exact if_pos ⟨holds.len.symm, holds.tail.symm⟩

theorem findFrom_none (path : NextChain.Path next a l none) (skip : ∀ x ∈ l, test x = false) (enough : l.length < fuel) :
    ∃ last, findFrom next test fuel a prev = some (none, last) := by
  induction l generalizing a prev fuel with
  | nil =>
    obtain ⟨fuel, rfl⟩ : ∃ n, fuel = n + 1 := ⟨fuel - 1, by rw [List.length_nil] at enough; omega⟩
    rw [show a = none from path]
    exact ⟨prev, rfl⟩
  | cons p l ih =>
    obtain ⟨fuel, rfl⟩ : ∃ n, fuel = n + 1 := ⟨fuel - 1, by rw [List.length_cons] at enough; omega⟩
    obtain ⟨here, rest⟩ := List.forall_mem_cons.mp skip
    rw [path.1, findFrom, here]
    exact ih path.2 rest (Nat.lt_of_succ_lt_succ enough)

theorem findFrom_some (path : NextChain.Path next a (front ++ p :: back) none) (skip : ∀ x ∈ front, test x = false) (hit : test p = true)
    (enough : front.length < fuel) : findFrom next test fuel a prev = some (some p, front.getLast?.or prev) := by
  induction front generalizing a prev fuel with
  | nil =>
    obtain ⟨fuel, rfl⟩ : ∃ n, fuel = n + 1 := ⟨fuel - 1, by rw [List.length_nil] at enough; omega⟩
    rw [path.1, findFrom, hit]
    rfl
  | cons x front ih =>
    obtain ⟨fuel, rfl⟩ : ∃ n, fuel = n + 1 := ⟨fuel - 1, by rw [List.length_cons] at enough; omega⟩
    obtain ⟨here, rest⟩ := List.forall_mem_cons.mp skip
    rw [path.1, findFrom, here, List.getLast?_cons]
    refine (ih path.2 rest (Nat.lt_of_succ_lt_succ enough)).trans ?_
    cases front.getLast? <;> rfl

/-- The search through the list ends with no packet, or with the first one and the one before it. -/
theorem Holds.found (holds : q.Holds l) (test : ℕ → Bool) :
    (l.find? test = none ∧ ∃ last, findFrom q.next test (q.len.toNat + 1) q.head none = some (none, last)) ∨
      ∃ front p back, l = front ++ p :: back ∧ l.find? test = some p ∧ test p = true ∧
        findFrom q.next test (q.len.toNat + 1) q.head none = some (some p, front.getLast?) := by
  have len := holds.len
  cases first : l.find? test with
  | none =>
    have skip := List.find?_eq_none.mp first
    exact Or.inl ⟨rfl, findFrom_none holds.path (fun x member => Bool.eq_false_iff.mpr (skip x member)) (by omega)⟩
  | some p =>
    obtain ⟨hit, front, back, rfl, skip⟩ := List.find?_eq_some_iff_append.mp first
    rw [List.length_append] at len
    have found : findFrom q.next test (q.len.toNat + 1) q.head none = some (some p, front.getLast?.or none) :=
      findFrom_some holds.path (fun x member => Bool.not_eq_true' _ ▸ skip x member) hit (by omega)
    rw [Option.or_none] at found
    exact Or.inr ⟨front, p, back, rfl, rfl, hit, found⟩

theorem Holds.removeHead (holds : q.Holds l) : ∃ r, q.removeHead = some (l.head?, r) ∧ r.Holds l.tail ∧
    SameFields q r ∧ r.next = q.next := by
  obtain ⟨path, tail, len⟩ := holds
  unfold AodvRqueue.removeHead
  cases l with
  | nil =>
    have head : q.head = none := path
    rw [if_pos (head.trans tail.symm), if_pos (head.trans tail.symm), if_pos head, head]
    exact ⟨_, rfl, ⟨rfl, rfl, len⟩, ⟨rfl, rfl, rfl, rfl⟩, rfl⟩
  | cons p l =>
    obtain ⟨head, path⟩ := path
    rw [List.length_cons] at len
    cases l with
    | nil =>
      have single : q.head = q.tail := head.trans tail.symm
      rw [if_pos single, if_pos single, head]
      exact ⟨_, rfl, ⟨rfl, rfl, by dsimp only; rw [if_neg (Option.some_ne_none p), len]; rfl⟩, ⟨rfl, rfl, rfl, rfl⟩, rfl⟩
    | cons p' l =>
      have distinct := NextChain.Path.nodup (a := some p) (l := p :: p' :: l) ⟨rfl, path⟩
      have several : q.head ≠ q.tail := by
        rw [head, tail]
        intro same
        have last : p ∈ p' :: l := List.mem_of_getLast? (List.getLast?_cons_cons.symm.trans same.symm)
        exact (List.nodup_cons.mp distinct).1 last
      rw [if_neg several, if_neg several, head]
      refine ⟨_, rfl, ⟨path, tail.trans List.getLast?_cons_cons, ?_⟩, ⟨rfl, rfl, rfl, rfl⟩, rfl⟩
      dsimp only [List.tail_cons]
      rw [if_neg (Option.some_ne_none p), len]
      push_cast
      omega

/-- What has been found behind the packets `front` is taken out. -/
theorem Holds.unlink (holds : q.Holds (front ++ p :: back)) :
    ∃ r, q.unlink p front.getLast? = some r ∧ r.Holds (front ++ back) ∧ SameFields q r := by
  have distinct := holds.path.nodup
  unfold AodvRqueue.unlink
  rcases List.eq_nil_or_concat' front with rfl | ⟨front, x, rfl⟩
  · have head : q.head = some p := holds.path.1
    obtain ⟨r, removed, after, same, _⟩ := holds.removeHead
    rw [asserting, if_pos (Or.inl ⟨head, rfl⟩), if_pos head, removed]
    exact ⟨r, rfl, after, same⟩
  · obtain ⟨path, tail, len⟩ := holds
    obtain ⟨c, first, second⟩ := NextChain.path_append.mp path
    obtain ⟨d, before, here⟩ := NextChain.path_append.mp first
    have linked : q.next x = some p := here.2.trans second.1
    obtain ⟨_, once, apart⟩ := List.nodup_append.mp distinct
    have other : q.head ≠ some p := by
      intro head
      cases front with
      | nil => exact apart x List.mem_cons_self p List.mem_cons_self (Option.some.inj ((before.trans here.1).symm.trans head))
      | cons y front => exact apart y List.mem_cons_self p List.mem_cons_self (Option.some.inj (before.1.symm.trans head))
    have asserted : q.head = some p ∧ some x = none ∨ (some x).bind q.next = some p := Or.inr linked
    rw [List.getLast?_concat, asserting, if_pos asserted, if_neg other, Option.map_some]
    have shorter : (q.len - 1 : ℤ) = ((front ++ [x] ++ back).length : ℕ) := by
      simp only [len, List.length_append, List.length_cons]
      push_cast
      omega
    cases back with
    | nil =>
      have last : q.tail = some p := tail.trans List.getLast?_concat
      have ends : q.next p = none := second.2
      have removed := path.unlink
      rw [ends] at removed
      rw [if_pos last]
      exact ⟨_, rfl, ⟨removed, by rw [List.append_nil, List.getLast?_concat], shorter⟩, ⟨rfl, rfl, rfl, rfl⟩⟩
    | cons y back =>
      have later : q.tail ≠ some p := by
        intro last
        have ends := tail.symm.trans last
        rw [List.getLast?_append_cons, List.getLast?_cons_cons] at ends
        exact (List.nodup_cons.mp once).1 (List.mem_of_getLast? ends)
      rw [if_neg later]
      refine ⟨_, rfl, ⟨path.unlink, tail.trans ?_, shorter⟩, ⟨rfl, rfl, rfl, rfl⟩⟩
      rw [List.getLast?_append_cons, List.getLast?_cons_cons, List.getLast?_append_cons]

theorem purgeFrom_eq (holds : q.Holds l) (enough : l.length < fuel) :
    ∃ r, purgeFrom now fuel q = some r ∧ r.Holds (q.fresh now l) ∧ SameFields q r := by
  induction fuel generalizing q l with
  | zero => omega
  | succ fuel ih =>
    rw [purgeFrom]
    unfold findAgedPacket
    rcases holds.found (fun p => q.ts p < now) with ⟨none', last, found⟩ | ⟨front, p, back, rfl, _, hit, found⟩
    · rw [found]
      refine ⟨q, rfl, ?_, .refl q⟩
      have all : q.fresh now l = l := List.filter_eq_self.mpr fun x member => by simpa using List.find?_eq_none.mp none' x member
      rwa [all]
    · rw [found]
      obtain ⟨r, removed, after, same⟩ := holds.unlink
      obtain ⟨t, purged, final, same'⟩ := ih after (by simp only [List.length_append, List.length_cons] at enough ⊢; omega)
      refine ⟨t, ?_, ?_, same.trans same'⟩
      · dsimp only [Option.bind_eq_bind, Option.bind_some]
        rw [removed, Option.bind_some, after.verifyQueue, Option.bind_some]
        exact purged
      · have rest : q.fresh now (front ++ p :: back) = r.fresh now (front ++ back) := by
          unfold fresh
          rw [same.ts, List.filter_append, List.filter_append, List.filter_cons_of_neg]
          simpa using hit
        rwa [rest]

theorem Holds.purge (holds : q.Holds l) (now : ℚ) : ∃ r, q.purge now = some r ∧ r.Holds (q.fresh now l) ∧ SameFields q r :=
  purgeFrom_eq holds (by have len := holds.len; omega)

/-- A packet that was not in the list is put at its end. -/
theorem Holds.link (holds : q.Holds l) (outside : p ∉ l) (ends : q.next p = none) :
    ∃ r, q.link p = some r ∧ r.Holds (l ++ [p]) ∧ r.limit = q.limit := by
  obtain ⟨path, tail, len⟩ := holds
  have longer : (q.len + 1 : ℤ) = ((l ++ [p]).length : ℕ) := by
    rw [len, List.length_append]
    rfl
  unfold AodvRqueue.link
  rcases List.eq_nil_or_concat' l with rfl | ⟨front, x, rfl⟩
  · have empty : q.head = none := path
    rw [if_pos empty]
    exact ⟨_, rfl, ⟨⟨rfl, ends⟩, rfl, longer⟩, rfl⟩
  · have some : q.head ≠ none := by
      obtain ⟨d, before, here⟩ := NextChain.path_append.mp path
      cases front with
      | nil => exact (before.trans here.1).symm ▸ Option.some_ne_none x
      | cons y front => exact before.1.symm ▸ Option.some_ne_none y
    rw [if_neg some, tail.trans List.getLast?_concat]
    exact ⟨_, rfl, ⟨path.link outside ends, List.getLast?_concat.symm, longer⟩, rfl⟩

theorem Holds.makeRoom (holds : q.Holds l) (limit : 0 < q.limit) (now : ℚ) : ∃ r dropped, q.makeRoom now = some (r, dropped) ∧ SameFields q r ∧
    r.next = q.next ∧ ∃ k, r.Holds k ∧ dropped.map Prod.fst ++ k = l ∧ (l.length ≤ q.limit → k.length < q.limit) := by
  have len := holds.len
  unfold AodvRqueue.makeRoom
  by_cases full : q.len = q.limit
  · obtain ⟨r, removed, after, same, kept⟩ := holds.removeHead
    cases l with
    | nil =>
      rw [List.length_nil] at len
      omega
    | cons p l =>
      rw [if_pos full, removed]
      refine ⟨r, _, rfl, same, kept, l, after, rfl, fun bound => ?_⟩
      rw [List.length_cons] at bound
      push_cast at bound
      omega
  · rw [if_neg full]
    exact ⟨q, [], rfl, .refl q, rfl, l, holds, rfl, fun bound => by omega⟩

/-- What a call leaves of the list of packets, when it has purged it or not. -/
structure Called (q : AodvRqueue) (kept arriving : List ℕ) (r : AodvRqueue) (answer : RqueueAnswer) (after : List ℕ) : Prop where
  holds : r.Holds after
  limit : r.limit = q.limit
  ordered : after.Sublist (kept ++ arriving)
  accounts : (after ++ answer.returned ++ answer.dropped.map Prod.fst).Perm (kept ++ arriving)
  room : kept.length ≤ q.limit → after.length ≤ q.limit

theorem Holds.enque (holds : q.Holds l) (limit : 0 < q.limit) (outside : p ∉ l) (now : ℚ) :
    ∃ r dropped after, q.enque now p = some (r, dropped) ∧ Called q (q.fresh now l) [p] r (.stored dropped) after := by
  obtain ⟨q₁, purged, listed, same⟩ := holds.purge now
  have absent : p ∉ q.fresh now l := fun member => outside (List.mem_filter.mp member).1
  have ready : Holds { q₁ with next := Function.update q₁.next p none, ts := Function.update q₁.ts p (now + q₁.timeout) } (q.fresh now l) :=
    ⟨listed.path.update absent none, listed.tail, listed.len⟩
  obtain ⟨q₂, dropped, roomy, same', kept, k, remaining, split, shorter⟩ := ready.makeRoom (same.limit.symm ▸ limit) now
  have sublist : k.Sublist (q.fresh now l) := split ▸ List.sublist_append_right _ _
  have ends : q₂.next p = none := by
    rw [kept]
    exact Function.update_self ..
  obtain ⟨q₃, linked, final, limit'⟩ := remaining.link (fun member => absent (sublist.subset member)) ends
  have limits : q₃.limit = q.limit := limit'.trans (same'.limit.trans same.limit)
  refine ⟨q₃, dropped, k ++ [p], ?_, final, limits, sublist.append_right [p], ?_, fun bound => ?_⟩
  · unfold AodvRqueue.enque
    rw [purged, Option.bind_eq_bind, Option.bind_some, roomy, Option.bind_eq_bind, Option.bind_some]
    dsimp only [Option.bind_eq_bind]
    rw [linked, Option.bind_some, final.verifyQueue]
    rfl
  · rw [← split]
    show ((k ++ [p] ++ []) ++ dropped.map Prod.fst).Perm _
    rw [List.append_nil, List.append_assoc (dropped.map Prod.fst)]
    exact List.perm_append_comm
  · have room := shorter (bound.trans same.limit.symm.le)
    dsimp only at room
    rw [same.limit] at room
    rw [List.length_append, List.length_singleton]
    push_cast
    omega

theorem Holds.deque (holds : q.Holds l) (now : ℚ) :
    ∃ r p, q.deque now = some (r, p) ∧ Called q (q.fresh now l) [] r (.packet p) (q.fresh now l).tail := by
  obtain ⟨q₁, purged, listed, same⟩ := holds.purge now
  obtain ⟨q₂, removed, final, same', _⟩ := listed.removeHead
  refine ⟨q₂, (q.fresh now l).head?, ?_, final, same'.limit.trans same.limit, ?_, ?_, fun bound => ?_⟩
  · unfold AodvRqueue.deque
    rw [purged, Option.bind_eq_bind, Option.bind_some, removed]
    dsimp only [Option.bind_eq_bind, Option.bind_some]
    rw [final.verifyQueue]
    rfl
  · rw [List.append_nil]
    exact List.tail_sublist _
  · cases q.fresh now l with
    | nil => exact List.Perm.refl []
    | cons p rest =>
      show ((rest ++ [p]) ++ []).Perm (p :: rest ++ [])
      rw [List.append_nil, List.append_nil]
      exact List.perm_append_singleton p rest
  · have shorter := (List.tail_sublist (q.fresh now l)).length_le
    omega

/-- `deque(dst)` gives the first packet for `dst` that has not timed out. -/
theorem Holds.dequeDst (holds : q.Holds l) (now : ℚ) (dst : ℕ) : ∃ r after, q.dequeDst now dst = some (r, (q.fresh now l).find? fun p => q.daddr p = dst) ∧
    Called q (q.fresh now l) [] r (.packet ((q.fresh now l).find? fun p => q.daddr p = dst)) after := by
  obtain ⟨q₁, purged, listed, same⟩ := holds.purge now
  unfold AodvRqueue.dequeDst findPacketWithDst
  rw [purged, Option.bind_eq_bind, Option.bind_some, same.daddr]
  rcases listed.found (fun p => q.daddr p = dst) with ⟨none', last, found⟩ | ⟨front, p, back, split, some', hit, found⟩
  · rw [found, none']
    refine ⟨q₁, q.fresh now l, rfl, listed, same.limit, List.sublist_append_left _ _, ?_, id⟩
    show ((q.fresh now l ++ []) ++ []).Perm _
    rw [List.append_nil]
  · rw [found, some']
    rw [split] at listed ⊢
    obtain ⟨r, removed, final, same'⟩ := listed.unlink
    refine ⟨r, front ++ back, ?_, final, same'.limit.trans same.limit, ?_, ?_, fun bound => ?_⟩
    · dsimp only [Option.bind_eq_bind, Option.bind_some]
      rw [removed, Option.bind_some, final.verifyQueue]
      rfl
    · rw [List.append_nil]
      exact (List.Sublist.refl front).append (List.sublist_cons_self p back)
    · show ((front ++ back ++ [p]) ++ []).Perm (front ++ p :: back ++ [])
      rw [List.append_nil, List.append_nil]
      exact (List.perm_append_singleton p (front ++ back)).trans List.perm_middle.symm
    · rw [List.length_append, List.length_cons] at bound
      rw [List.length_append]
      push_cast at bound ⊢
      omega

theorem Holds.find (holds : q.Holds l) (dst : ℕ) : q.find dst = some (l.any fun p => q.daddr p = dst) := by
  unfold AodvRqueue.find findPacketWithDst
  rcases holds.found (fun p => q.daddr p = dst) with ⟨none', last, found⟩ | ⟨front, p, back, rfl, _, hit, found⟩
  · rw [found]
    exact congrArg some (List.any_eq_false.mpr (List.find?_eq_none.mp none')).symm
  · rw [found]
    exact congrArg some (List.any_eq_true.mpr ⟨p, List.mem_append_right _ List.mem_cons_self, hit⟩).symm

end AodvRqueue

end Ns2
