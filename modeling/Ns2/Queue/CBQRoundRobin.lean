import Ns2.Library.RoundRobin
import Ns2.Queue.CBQInsert
import Mathlib.Data.List.Rotate

universe u

namespace Ns2

variable {ι : Type u}

/-- The rings of classes with queues, each read from `active_` on along `peer_`, and `bytes_alloc_` of the classes. -/
@[ext] structure Rounds (s : CBQueue ι) where
  active : ℤ → List ι
  distinct : ∀ prio, (active prio).Nodup
  pri : ∀ prio, ∀ cl ∈ active prio, (s.cls cl).pri = prio
  scanned : ∀ prio, ∀ cl ∈ active prio, 0 ≤ prio ∧ prio ≤ s.maxprio
  bytesAlloc : ι → ℤ

/-- What one call of `deque` finds: the packets in the queues, what `send_permitted` answers in the first and in the second round at a
priority level, and the size of the packet that `resume` brings, if it brings one. -/
structure Offer (ι : Type u) where
  pkts : ι → ℕ
  permitted : Bool → ι → Bool
  size : ι → Option ℤ

def Offer.demand (o : Offer ι) (cl : ι) : Bool := o.pkts cl > 0

/-- The class has a packet and is permitted to send throughout the call. -/
structure Offer.Able (o : Offer ι) (cl : ι) : Prop where
  demand : o.demand cl = true
  permitted : ∀ second, o.permitted second cl = true

/-- The variables of the loops of `deque`. -/
structure Scan (ι : Type u) where
  first : Option ι
  deficit : ℤ
  bytesAlloc : ι → ℤ

namespace WRR

variable (s : CBQueue ι) (w : WRR)

/-- The weight that a class is given, truncated as by a cast to `int`. -/
def weight (cl : ι) : ℤ :=
  let product := (s.cls cl).allotment * w.M (s.cls cl).pri
  product.num.tdiv product.den

variable [DecidableEq ι]

/-- Set up "weight" for WRR. -/
def setUp (v : Scan ι) (cl : ι) : Scan ι :=
  if v.deficit < 2 ∧ v.bytesAlloc cl ≤ 0 then
    { v with bytesAlloc := Function.update v.bytesAlloc cl (v.bytesAlloc cl + w.weight s cl) }
  else v

def noteFirst (v : Scan ι) (cl : ι) : Scan ι :=
  if v.first = none ∧ (s.cls cl).permitBorrowing ∧ (s.cls cl).lender ≠ none then { v with first := some cl } else v

def forfeit (v : Scan ι) (cl : ι) : Scan ι := { v with bytesAlloc := Function.update v.bytesAlloc cl 0 }

/-- The body of the inner loop, and whether it leaves the loop with the class as `eligible`. -/
def visit (o : Offer ι) (v : Scan ι) (cl : ι) : Bool × Scan ι :=
  let v := w.setUp s v cl
  if !o.demand cl then (false, forfeit v cl)
  else
    let v := noteFirst s v cl
    if !o.permitted (v.deficit > 1) cl then (false, forfeit v cl)
    else if v.bytesAlloc cl > 0 ∨ v.deficit > 1 then (true, v)
    else (false, forfeit { v with deficit := 1 } cl)

/-- Look for class at this priority level ok to send. -/
def scan (o : Offer ι) : List ι → Scan ι → Option ι × Scan ι
  | [], v => (none, v)
  | cl :: peers, v =>
    let next := w.visit s o v cl
    if next.1 then (some cl, next.2) else scan o peers next.2

/-- The rounds at one priority level. A second round at deficit 2 is the last. -/
def level (o : Offer ι) (active : List ι) (v : Scan ι) : Option ι × Scan ι :=
  let found := w.scan s o active { v with deficit := 0 }
  if found.1 = none ∧ found.2.deficit = 1 then w.scan s o active { found.2 with deficit := 2 } else found

def search (o : Offer ι) (active : ℤ → List ι) : List ℤ → Scan ι → Option ι × Scan ι
  | [], v => (none, v)
  | prio :: lower, v =>
    let found := w.level s o (active prio) v
    if found.1 = none then search o active lower found.2 else found

end WRR

/-- The priorities from 0 to `maxprio_`. -/
def CBQueue.priorities (s : CBQueue ι) : List ℤ := (List.range (s.maxprio + 1).toNat).map Nat.cast

variable [DecidableEq ι]

/-- The ring read from the class on, or from its peer on. -/
def Rounds.turnTo (cl : ι) (again : Bool) (active : List ι) : List ι :=
  let ring := active.dropWhile (· ≠ cl) ++ active.takeWhile (· ≠ cl)
  if again then ring else ring.rotate 1

theorem Rounds.turnTo_perm (cl : ι) (again : Bool) (active : List ι) : (Rounds.turnTo cl again active).Perm active := by
  have ring : (active.dropWhile (· ≠ cl) ++ active.takeWhile (· ≠ cl)).Perm active := by
    conv_rhs => rw [← List.takeWhile_append_dropWhile (p := (· ≠ cl)) (l := active)]
    exact List.perm_append_comm
  unfold turnTo
  split_ifs
  · exact ring
  · exact (List.rotate_perm _ 1).trans ring

namespace Rounds

variable {s : CBQueue ι}

theorem turnTo_append {cl : ι} {again : Bool} {skipped rest : List ι} (absent : cl ∉ skipped) :
    turnTo cl again (skipped ++ cl :: rest) = if again then cl :: rest ++ skipped else rest ++ skipped ++ [cl] := by
  have passed (x : ι) (member : x ∈ skipped) : decide (x ≠ cl) = true := decide_eq_true fun same => absent (same ▸ member)
  have stop : decide (cl ≠ cl) = false := decide_eq_false fun apart => apart rfl
  rw [turnTo, List.dropWhile_append_of_pos passed, List.takeWhile_append_of_pos passed, List.dropWhile_cons, List.takeWhile_cons, stop]
  simp

/-- `active_[prio]` becomes the class itself or its peer. -/
def setActive (active : ℤ → List ι) (prio : ℤ) (cl : ι) (again : Bool) : ℤ → List ι :=
  Function.update active prio (turnTo cl again (active prio))

theorem setActive_perm (active : ℤ → List ι) (pri : ℤ) (cl : ι) (again : Bool) (prio : ℤ) :
    (setActive active pri cl again prio).Perm (active prio) := by
  by_cases here : prio = pri
  · rw [here, setActive, Function.update_self]
    exact turnTo_perm ..
  · rw [setActive, Function.update_of_ne here]

def advance (t : Rounds s) (cl : ι) (again : Bool) : Rounds s where
  active := setActive t.active (s.cls cl).pri cl again
  distinct prio := (setActive_perm ..).nodup_iff.mpr (t.distinct prio)
  pri prio cl member := t.pri prio cl ((setActive_perm ..).mem_iff.mp member)
  scanned prio cl member := t.scanned prio cl ((setActive_perm ..).mem_iff.mp member)
  bytesAlloc := t.bytesAlloc

end Rounds

namespace WRR

/-- Reduce our alloc by the packet size. -/
def charge (bytesAlloc : ι → ℤ) (eligible : ι) (size : ℤ) : ι → ℤ :=
  if bytesAlloc eligible > 0 then Function.update bytesAlloc eligible (bytesAlloc eligible - size) else bytesAlloc

/-- Do accounting. -/
def account {s : CBQueue ι} (t : Rounds s) (eligible : ι) (pending : Option ℤ) : Rounds s :=
  match pending with
  | none => t.advance eligible false
  | some size =>
    -- if we are still positive, we get to go again
    let bytesAlloc := charge t.bytesAlloc eligible size
    { t with bytesAlloc }.advance eligible (bytesAlloc eligible > 0)

variable (s : CBQueue ι) (w : WRR)

/-- `WRR_CBQueue::deque`, with the class that is resumed and the size of the packet that it passes. -/
def deque (t : Rounds s) (o : Offer ι) : Rounds s × Option (ι × Option ℤ) :=
  let found := w.search s o t.active s.priorities ⟨none, 0, t.bytesAlloc⟩
  let t := { t with bytesAlloc := found.2.bytesAlloc }
  match found.1 with
  | some eligible => (account t eligible (o.size eligible), some (eligible, o.size eligible))
  | none =>
    -- did not find anyone so let first go
    match found.2.first with
    | some first => (t.advance first false, some (first, o.size first))
    | none => (t, none)

def machine : Machine (Rounds s) (Offer ι) (Option (ι × Option ℤ)) where
  step t o := some (w.deque s t o)

end WRR

namespace WRR

open QuotaRound

variable {s : CBQueue ι} {w : WRR} {o : Offer ι} {u v : Scan ι} {cl i : ι} {l z : List ι}

/-- The class has its weight, and nothing else has changed that matters here. -/
structure Weighed (s : CBQueue ι) (w : WRR) (v : Scan ι) (cl : ι) (u : Scan ι) : Prop where
  deficit : u.deficit = v.deficit
  own : v.deficit < 2 → u.bytesAlloc cl = topped (w.weight s) v.bytesAlloc cl
  others : ∀ i, i ≠ cl → u.bytesAlloc i = v.bytesAlloc i

theorem weighed_setUp : Weighed s w v cl (w.setUp s v cl) := by
  by_cases used : v.deficit < 2 ∧ v.bytesAlloc cl ≤ 0
  · have update : (w.setUp s v cl).bytesAlloc = Function.update v.bytesAlloc cl (v.bytesAlloc cl + w.weight s cl) := by
      rw [setUp, if_pos used]
    refine ⟨by rw [setUp, if_pos used], fun _ => ?_, fun i other => ?_⟩
    · rw [update, Function.update_self, topped, if_pos used.2]
    · rw [update, Function.update_of_ne other]
  · have same : w.setUp s v cl = v := if_neg used
    rw [same]
    exact ⟨rfl, fun early => by rw [topped, if_neg fun low => used ⟨early, low⟩], fun _ _ => rfl⟩

omit [DecidableEq ι] in
theorem Weighed.noteFirst (weighed : Weighed s w v cl u) : Weighed s w v cl (noteFirst s u cl) := by
  unfold WRR.noteFirst
  split_ifs
  · exact ⟨weighed.deficit, weighed.own, weighed.others⟩
  · exact weighed

/-- What the body of the inner loop can do. -/
inductive Visited (s : CBQueue ι) (w : WRR) (o : Offer ι) (v : Scan ι) (cl : ι) : Bool × Scan ι → Prop
  | barred {u : Scan ι} (barred : ¬(o.demand cl = true ∧ o.permitted (v.deficit > 1) cl = true)) (deficit : u.deficit = v.deficit)
      (others : ∀ i, i ≠ cl → u.bytesAlloc i = v.bytesAlloc i) : Visited s w o v cl (false, u)
  | ready {u : Scan ι} (weighed : Weighed s w v cl u) (weighty : 0 < u.bytesAlloc cl ∨ 1 < v.deficit) : Visited s w o v cl (true, u)
  | short {u : Scan ι} (early : v.deficit < 2) (deficit : u.deficit = 1) (weightless : topped (w.weight s) v.bytesAlloc cl ≤ 0)
      (own : u.bytesAlloc cl = 0) (others : ∀ i, i ≠ cl → u.bytesAlloc i = v.bytesAlloc i) : Visited s w o v cl (false, u)

theorem visited : Visited s w o v cl (w.visit s o v cl) := by
  have weighed : Weighed s w v cl (w.setUp s v cl) := weighed_setUp
  have forfeited {u : Scan ι} (others : ∀ i, i ≠ cl → u.bytesAlloc i = v.bytesAlloc i) (i : ι) (other : i ≠ cl) :
      (forfeit u cl).bytesAlloc i = v.bytesAlloc i :=
    (Function.update_of_ne other ..).trans (others i other)
  unfold visit
  by_cases demand : o.demand cl = true
  · rw [demand, Bool.not_true, if_neg Bool.false_ne_true]
    have weighed := weighed.noteFirst
    simp only [weighed.deficit]
    by_cases permitted : o.permitted (v.deficit > 1) cl = true
    · rw [permitted, Bool.not_true, if_neg Bool.false_ne_true]
      split_ifs with weighty
      · exact .ready weighed weighty
      · obtain ⟨light, early⟩ := not_or.mp weighty
        have early : v.deficit < 2 := by omega
        refine .short early rfl ?_ (Function.update_self ..) (forfeited weighed.others)
        rw [← weighed.own early]
        exact not_lt.mp light
    · rw [(Bool.not_eq_true _).mp permitted, Bool.not_false, if_pos rfl]
      exact .barred (fun both => permitted both.2) weighed.deficit (forfeited weighed.others)
  · rw [(Bool.not_eq_true _).mp demand, Bool.not_false, if_pos rfl]
    exact .barred (fun both => demand both.1) weighed.deficit (forfeited weighed.others)

omit [DecidableEq ι] in
theorem Visited.others {next : Bool × Scan ι} (visited : Visited s w o v cl next) (other : i ≠ cl) :
    next.2.bytesAlloc i = v.bytesAlloc i := by
  cases visited with
  | barred _ _ others => exact others i other
  | ready weighed _ => exact weighed.others i other
  | short _ _ _ _ others => exact others i other

theorem scan_mem (found : (w.scan s o l v).1 = some cl) : cl ∈ l := by
  induction l generalizing v with
  | nil => cases found
  | cons head peers ih =>
    rw [scan] at found
    split_ifs at found
    · exact Option.some.inj found ▸ List.mem_cons_self
    · exact List.mem_cons_of_mem _ (ih found)

theorem scan_other (outside : i ∉ l) : (w.scan s o l v).2.bytesAlloc i = v.bytesAlloc i := by
  induction l generalizing v with
  | nil => rfl
  | cons head peers ih =>
    obtain ⟨apart, outside⟩ := not_or.mp (mt List.mem_cons.mpr outside)
    have same : (w.visit s o v head).2.bytesAlloc i = v.bytesAlloc i := visited.others apart
    rw [scan]
    split_ifs
    · exact same
    · rw [ih outside, same]

/-- In a first round that finds nobody, somebody able to send was short of weight, or nobody is able to send. -/
theorem scan_first (early : v.deficit < 2) (nobody : (w.scan s o l v).1 = none) :
    (w.scan s o l v).2.deficit = 1 ∨
      (w.scan s o l v).2.deficit = v.deficit ∧ ∀ cl ∈ l, ¬(o.demand cl = true ∧ o.permitted false cl = true) := by
  induction l generalizing v with
  | nil => exact Or.inr ⟨rfl, fun cl member => absurd member List.not_mem_nil⟩
  | cons head peers ih =>
    have step : Visited s w o v head (w.visit s o v head) := visited
    rw [scan] at nobody ⊢
    generalize w.visit s o v head = next at step nobody ⊢
    cases step with
    | @barred u barred deficit others =>
      rw [decide_eq_false (by omega)] at barred
      refine (ih (deficit.trans_lt early) nobody).imp_right fun ⟨same, idle⟩ => ⟨same.trans deficit, ?_⟩
      exact List.forall_mem_cons.mpr ⟨barred, idle⟩
    | ready => cases nobody
    | @short u early deficit weightless own others =>
      rcases ih (deficit.trans_lt one_lt_two) nobody with one | ⟨same, _⟩
      · exact Or.inl one
      · exact Or.inl (same.trans deficit)

/-- A second round ends at the first class that may send. -/
theorem scan_second (late : v.deficit = 2) (nobody : (w.scan s o l v).1 = none) :
    ∀ cl ∈ l, ¬(o.demand cl = true ∧ o.permitted true cl = true) := by
  induction l generalizing v with
  | nil => exact fun cl member => absurd member List.not_mem_nil
  | cons head peers ih =>
    have step : Visited s w o v head (w.visit s o v head) := visited
    rw [scan] at nobody
    generalize w.visit s o v head = next at step nobody
    cases step with
    | @barred u barred deficit others =>
      rw [decide_eq_true (by omega)] at barred
      exact List.forall_mem_cons.mpr ⟨barred, ih (deficit.trans late) nobody⟩
    | ready => cases nobody
    | short early => omega

theorem level_eq : w.level s o l v =
    if (w.scan s o l { v with deficit := 0 }).1 = none ∧ (w.scan s o l { v with deficit := 0 }).2.deficit = 1 then
      w.scan s o l { (w.scan s o l { v with deficit := 0 }).2 with deficit := 2 }
    else w.scan s o l { v with deficit := 0 } := rfl

theorem level_other (outside : i ∉ l) : (w.level s o l v).2.bytesAlloc i = v.bytesAlloc i := by
  rw [level_eq]
  split_ifs
  · exact (scan_other outside).trans (scan_other outside)
  · exact scan_other outside

theorem level_mem (found : (w.level s o l v).1 = some cl) : cl ∈ l := by
  rw [level_eq] at found
  split_ifs at found
  · exact scan_mem found
  · exact scan_mem found

variable {active : ℤ → List ι} {p : ℤ} {higher lower : List ℤ}

/-- A priority level is left for the next one only if none of its classes is able to send. -/
theorem level_none (nobody : (w.level s o l v).1 = none) : ∀ cl ∈ l, ¬o.Able cl := by
  intro cl member able
  rw [level_eq] at nobody
  split_ifs at nobody with again
  · exact scan_second rfl nobody cl member ⟨able.demand, able.permitted true⟩
  · rcases scan_first (show (0 : ℤ) < 2 by decide) nobody with one | ⟨_, idle⟩
    · exact again ⟨nobody, one⟩
    · exact idle cl member ⟨able.demand, able.permitted false⟩

/-- The search ends at a class of a higher priority, or goes on at the level with the balances there as they were. -/
theorem search_reaches (apart : ∀ prio ∈ higher, ∀ i ∈ active p, i ∉ active prio) :
    (∃ prio ∈ higher, ∃ cl ∈ active prio, ∃ u, w.search s o active (higher ++ p :: lower) v = (some cl, u) ∧
      ∀ i ∈ active p, u.bytesAlloc i = v.bytesAlloc i) ∨
    ∃ u, w.search s o active (higher ++ p :: lower) v = w.search s o active (p :: lower) u ∧
      (∀ i ∈ active p, u.bytesAlloc i = v.bytesAlloc i) ∧ ∀ prio ∈ higher, ∀ cl ∈ active prio, ¬o.Able cl := by
  induction higher generalizing v with
  | nil => exact Or.inr ⟨v, rfl, fun _ _ => rfl, fun prio member => absurd member List.not_mem_nil⟩
  | cons prio higher ih =>
    obtain ⟨here, apart⟩ := List.forall_mem_cons.mp apart
    have same (i : ι) (member : i ∈ active p) : (w.level s o (active prio) v).2.bytesAlloc i = v.bytesAlloc i :=
      level_other (here i member)
    rw [List.cons_append, search]
    cases found : (w.level s o (active prio) v).1 with
    | some cl =>
      rw [if_neg (Option.some_ne_none cl)]
      refine Or.inl ⟨prio, List.mem_cons_self, cl, level_mem found, (w.level s o (active prio) v).2, ?_, same⟩
      rw [← found]
    | none =>
      rw [if_pos rfl]
      rcases ih (v := (w.level s o (active prio) v).2) apart with ⟨later, member, cl, listed, u, ends, kept⟩ | ⟨u, goes, kept, idle⟩
      · exact Or.inl ⟨later, List.mem_cons_of_mem _ member, cl, listed, u, ends, fun i inside => (kept i inside).trans (same i inside)⟩
      · refine Or.inr ⟨u, goes, fun i inside => (kept i inside).trans (same i inside), ?_⟩
        exact List.forall_mem_cons.mpr ⟨level_none found, idle⟩

theorem search_found (found : w.scan s o (active p) { v with deficit := 0 } = (some cl, u)) :
    w.search s o active (p :: lower) v = (some cl, u) := by
  have level : w.level s o (active p) v = (some cl, u) := by
    rw [level_eq, found, if_neg fun both => Option.some_ne_none cl both.1]
  rw [search, level, if_neg (Option.some_ne_none cl)]

omit [DecidableEq ι] in
theorem priorities_split (inside : 0 ≤ p ∧ p ≤ s.maxprio) :
    ∃ higher lower, s.priorities = higher ++ p :: lower ∧ ∀ prio, prio ∈ higher ↔ 0 ≤ prio ∧ prio < p := by
  have listed (prio : ℤ) : prio ∈ s.priorities ↔ 0 ≤ prio ∧ prio ≤ s.maxprio := by
    simp only [CBQueue.priorities, List.mem_map, List.mem_range]
    constructor
    · rintro ⟨n, less, rfl⟩
      omega
    · exact fun ⟨low, high⟩ => ⟨prio.toNat, by omega, Int.toNat_of_nonneg low⟩
  have sorted : s.priorities.Pairwise (· < ·) := by
    refine List.pairwise_map.mpr (List.pairwise_lt_range.imp ?_)
    exact fun less => Int.ofNat_lt.mpr less
  obtain ⟨higher, lower, split⟩ := List.append_of_mem ((listed p).mpr inside)
  rw [split] at sorted listed
  obtain ⟨_, after, before⟩ := List.pairwise_append.mp sorted
  refine ⟨higher, lower, split, fun prio => ⟨fun member => ?_, fun ⟨low, less⟩ => ?_⟩⟩
  · exact ⟨((listed prio).mp (List.mem_append_left _ member)).1, before prio member p List.mem_cons_self⟩
  · rcases List.mem_append.mp ((listed prio).mpr ⟨low, less.le.trans inside.2⟩) with member | member
    · exact member
    · rcases List.mem_cons.mp member with rfl | later
      · exact absurd less (lt_irrefl prio)
      · exact absurd ((List.pairwise_cons.mp after).1 prio later) less.asymm

theorem deque_found {t : Rounds s} (found : w.search s o t.active s.priorities ⟨none, 0, t.bytesAlloc⟩ = (some cl, v)) :
    w.deque s t o = (account { t with bytesAlloc := v.bytesAlloc } cl (o.size cl), some (cl, o.size cl)) := by
  simp only [deque, found]

section Account

variable {t : Rounds s} {size : ℤ} {pending : Option ℤ}

theorem advance_active {again : Bool} : (t.advance cl again).active p =
    if p = (s.cls cl).pri then Rounds.turnTo cl again (t.active p) else t.active p := by
  by_cases here : p = (s.cls cl).pri
  · rw [if_pos here, here]
    exact Function.update_self ..
  · rw [if_neg here]
    exact Function.update_of_ne here ..

theorem charge_other {bytesAlloc : ι → ℤ} (other : i ≠ cl) : charge bytesAlloc cl size i = bytesAlloc i := by
  unfold charge
  split_ifs
  · exact Function.update_of_ne other ..
  · rfl

theorem charge_self {bytesAlloc : ι → ℤ} (positive : 0 < bytesAlloc cl) : charge bytesAlloc cl size cl = bytesAlloc cl - size := by
  rw [charge, if_pos positive, Function.update_self]

theorem account_other (other : i ≠ cl) : (account t cl pending).bytesAlloc i = t.bytesAlloc i := by
  cases pending with
  | none => rfl
  | some size => exact charge_other other

theorem account_active (other : p ≠ (s.cls cl).pri) : (account t cl pending).active p = t.active p := by
  cases pending <;> exact advance_active.trans (if_neg other)

end Account

end WRR

end Ns2
