import Ns2.Library.Machine
import Ns2.Queue.CBQ
import Mathlib.Algebra.BigOperators.Group.Finset.Basic
import Mathlib.Tactic.Ring

universe u v

namespace Ns2

namespace CBQueue

variable {ι : Type u} [DecidableEq ι] {W : Type v}

def modify (s : CBQueue ι) (x : ι) (f : CBQClass ι → CBQClass ι) : CBQueue ι := { s with cls := Function.update s.cls x (f (s.cls x)) }

def setPeer (s : CBQueue ι) (x : ι) (peer : Option ι) : CBQueue ι := s.modify x fun cl => { cl with peer }

def linkPeer (s : CBQueue ι) (p : ι) : CBQueue ι :=
  let pri := (s.cls p).pri
  (s.active pri).elim { s.setPeer p (some p) with active := Function.update s.active pri (some p) } fun head =>
    (s.setPeer p (s.cls head).peer).setPeer head (some p)

/-- Add to circularly-linked list `active_` of peers for the given priority. -/
def addPeer (s : CBQueue ι) (p : ι) : CBQueue ι :=
  let pri := (s.cls p).pri
  { s.linkPeer p with maxprio := if pri > s.maxprio then pri else s.maxprio }

/-- Only classes with queues are scheduled. -/
def joined (s : CBQueue ι) (p : ι) : CBQueue ι := if (s.cls p).q then s.addPeer p else s

/-- Compute `maxrate_` from the allotment. -/
def rated (s : CBQueue ι) (p : ι) : CBQueue ι := s.modify p fun cl => { cl with maxrate := cl.allotment * (s.link.getD 0 / 8) }

/-- Add to per-level list. -/
def addLevel (s : CBQueue ι) (p : ι) : CBQueue ι :=
  let level := (s.cls p).level
  { s with
    levels := Function.update s.levels level (p :: s.levels level)
    maxlevel := if level > s.maxlevel then level else s.maxlevel }

/-- `CBQueue::insert_class`; `addallot` is the virtual method, which works on the fields of the subclass. `false` stands for -1,
`none` for a call of `abort`. -/
def insertClass (addallot : CBQueue ι → W → ℤ → ℚ → Option W) (s : CBQueue ι) (w : W) (p : ι) : Option (Bool × CBQueue ι × W) :=
  let cl := s.cls p
  if cl.pri < 0 ∨ cl.pri > MAXPRIO - 1 then some (false, s, w)
  else if cl.allotment < 0 ∨ cl.allotment > 1 then some (false, s.joined p, w)
  else if s.link = none then some (false, s.joined p, w)
  else if s.link.getD 0 ≤ 0 then some (false, s.joined p, w)
  else
    let t := (s.joined p).rated p
    (addallot t w cl.pri cl.allotment).map fun w =>
      if cl.level ≤ 0 ∨ cl.level > MAXLEVEL then (false, t, w) else (true, t.addLevel p, w)

/-- `CBQueue::addallot` -/
def noAllot (_ : CBQueue ι) (_ : Unit) (_ : ℤ) (_ : ℚ) : Option Unit := some ()

end CBQueue

/-- What `WRR_CBQueue` adds. -/
@[ext] structure WRR where
  alloc : ℤ → ℚ
  M : ℤ → ℚ
  cnt : ℤ → ℤ

namespace WRR

open CBQueue

variable {ι : Type u}

def quota (s : CBQueue ι) (w : WRR) (i : ℤ) : ℚ := if w.alloc i > 0 then w.cnt i * s.maxpkt * 1 / w.alloc i else 0

def setM (s : CBQueue ι) (w : WRR) : Option WRR :=
  if ∃ i < (s.maxprio + 1).toNat, w.quota s i < 0 then none
  else some { w with M := fun i => if 0 ≤ i ∧ i ≤ s.maxprio then w.quota s i else w.M i }

def addallot (s : CBQueue ι) (w : WRR) (prio : ℤ) (diff : ℚ) : Option WRR :=
  { w with alloc := Function.update w.alloc prio (w.alloc prio + diff) }.setM s

variable [DecidableEq ι]

def insertClass (s : CBQueue ι) (w : WRR) (p : ι) : Option (Bool × CBQueue ι × WRR) :=
  (s.insertClass addallot w p).bind fun answer =>
    if !answer.1 then some answer
    else
      let s := answer.2.1
      let w := answer.2.2
      let pri := (s.cls p).pri
      ({ w with cnt := Function.update w.cnt pri (w.cnt pri + 1) }.setM s).map fun w => (true, s, w)

/-- `CBQClass::newallot` for a class of this queue; without a link it follows a null pointer. -/
def newallot (s : CBQueue ι) (w : WRR) (p : ι) (bw : ℚ) : Option (CBQueue ι × WRR) :=
  s.link.bind fun bandwidth =>
    let allotment := if (s.cls p).allotment < 0 then 0 else (s.cls p).allotment
    let bw := if bw < 0 then 0 else bw
    let s := s.modify p fun cl => { cl with allotment := bw, maxrate := bw * (bandwidth / 8) }
    (w.addallot s (s.cls p).pri (bw - allotment)).map fun w => (s, w)

end WRR

/-- The rings, the lists and the maxima are as before. -/
structure CBQueue.Kept {ι : Type u} (s t : CBQueue ι) : Prop where
  active : t.active = s.active
  peer : ∀ x, (t.cls x).peer = (s.cls x).peer
  levels : t.levels = s.levels
  maxprio : t.maxprio = s.maxprio
  maxlevel : t.maxlevel = s.maxlevel

namespace CBQueue

variable {ι : Type u} [DecidableEq ι] {W : Type v} {s t : CBQueue ι} {x p : ι} {f : CBQClass ι → CBQClass ι}

def ValidPri (s : CBQueue ι) (p : ι) : Prop := 0 ≤ (s.cls p).pri ∧ (s.cls p).pri ≤ MAXPRIO - 1

/-- What is checked after the class has joined its ring and before `addallot`. -/
def Unusable (s : CBQueue ι) (p : ι) : Prop :=
  (s.cls p).allotment < 0 ∨ (s.cls p).allotment > 1 ∨ s.link = none ∨ s.link.getD 0 ≤ 0

def BadLevel (s : CBQueue ι) (p : ι) : Prop := (s.cls p).level ≤ 0 ∨ (s.cls p).level > MAXLEVEL

/-- Joining its ring once more makes no difference to the class. -/
def Rejoins (s : CBQueue ι) (p : ι) : Prop :=
  ∃ head, s.active (s.cls p).pri = some head ∧ (s.cls head).peer = some p ∧ (s.cls p).peer = some p ∧ (s.cls p).pri ≤ s.maxprio

omit [DecidableEq ι] in
theorem Kept.refl (s : CBQueue ι) : Kept s s := ⟨rfl, fun _ => rfl, rfl, rfl, rfl⟩

@[simp] theorem modify_self : (s.modify x f).cls x = f (s.cls x) := Function.update_self ..

theorem modify_other {y : ι} (other : y ≠ x) : (s.modify x f).cls y = s.cls y := Function.update_of_ne other ..

theorem setPeer_self {peer : Option ι} : ((s.setPeer x peer).cls x).peer = peer := by rw [setPeer, modify_self]

theorem setPeer_other {y : ι} {peer : Option ι} (other : y ≠ x) : ((s.setPeer x peer).cls y).peer = (s.cls y).peer := by
  rw [setPeer, modify_other other]

theorem kept_modify {u : CBQueue ι} (peer : (f (t.cls x)).peer = (t.cls x).peer) : Kept u (t.modify x f) ↔ Kept u t := by
  have same (y : ι) : ((t.modify x f).cls y).peer = (t.cls y).peer := by
    by_cases here : y = x
    · rw [here, modify_self, peer]
    · rw [modify_other here]
  constructor
  · exact fun kept => ⟨kept.active, fun y => (same y).symm.trans (kept.peer y), kept.levels, kept.maxprio, kept.maxlevel⟩
  · exact fun kept => ⟨kept.active, fun y => (same y).trans (kept.peer y), kept.levels, kept.maxprio, kept.maxlevel⟩

theorem kept_addPeer : Kept s (s.addPeer p) ↔ s.Rejoins p := by
  have maxprio : (s.addPeer p).maxprio = if (s.cls p).pri > s.maxprio then (s.cls p).pri else s.maxprio := rfl
  cases first : s.active (s.cls p).pri with
  | none =>
    have active : (s.addPeer p).active = Function.update s.active (s.cls p).pri (some p) := by
      rw [addPeer, linkPeer, first]
      rfl
    refine iff_of_false (fun kept => ?_) fun ⟨head, here, _⟩ => ?_
    · have changed := congrFun (active.symm.trans kept.active) (s.cls p).pri
      rw [first, Function.update_self] at changed
      cases changed
    · rw [first] at here
      cases here
  | some head =>
    have behind : s.linkPeer p = (s.setPeer p (s.cls head).peer).setPeer head (some p) := by
      rw [linkPeer, first]
      rfl
    have cls : (s.addPeer p).cls = (s.linkPeer p).cls := rfl
    have atHead : ((s.addPeer p).cls head).peer = some p := by rw [cls, behind, setPeer_self]
    have atOwn (other : p ≠ head) : ((s.addPeer p).cls p).peer = (s.cls head).peer := by
      rw [cls, behind, setPeer_other other, setPeer_self]
    have elsewhere {y : ι} (notOwn : y ≠ p) (notHead : y ≠ head) : ((s.addPeer p).cls y).peer = (s.cls y).peer := by
      rw [cls, behind, setPeer_other notHead, setPeer_other notOwn]
    constructor
    · intro kept
      have next : (s.cls head).peer = some p := (kept.peer head).symm.trans atHead
      refine ⟨head, first, next, ?_, ?_⟩
      · by_cases own : p = head
        · rw [own, next, own]
        · exact (kept.peer p).symm.trans ((atOwn own).trans next)
      · have top := maxprio.symm.trans kept.maxprio
        split_ifs at top <;> omega
    · rintro ⟨head', first', next, loop, known⟩
      cases Option.some.inj (first.symm.trans first')
      refine ⟨by rw [addPeer, behind]; rfl, fun y => ?_, by rw [addPeer, behind]; rfl, by rw [maxprio, if_neg (by omega)],
        by rw [addPeer, behind]; rfl⟩
      by_cases atY : y = head
      · rw [atY, atHead, next]
      · by_cases own : y = p
        · rw [own, atOwn (own ▸ atY), next, loop]
        · exact elsewhere own atY

theorem kept_joined : Kept s (s.joined p) ↔ ((s.cls p).q = true → s.Rejoins p) := by
  rw [joined]
  split_ifs with q
  · rw [kept_addPeer, forall_prop_of_true q]
  · exact iff_of_true (Kept.refl s) fun has => absurd has q

theorem kept_rated : Kept s ((s.joined p).rated p) ↔ ((s.cls p).q = true → s.Rejoins p) := by
  rw [rated, kept_modify rfl, kept_joined]

section Ways

variable {addallot : CBQueue ι → W → ℤ → ℚ → Option W} {w : W}

theorem insertClass_invalid (invalid : ¬s.ValidPri p) : s.insertClass addallot w p = some (false, s, w) := by
  rw [ValidPri] at invalid
  exact if_pos (by omega)

theorem insertClass_unusable (valid : s.ValidPri p) (unusable : s.Unusable p) :
    s.insertClass addallot w p = some (false, s.joined p, w) := by
  obtain ⟨low, high⟩ := valid
  rw [insertClass, if_neg (by omega)]
  by_cases allotment : (s.cls p).allotment < 0 ∨ (s.cls p).allotment > 1
  · exact if_pos allotment
  · rw [if_neg allotment]
    by_cases link : s.link = none
    · exact if_pos link
    · rw [if_neg link]
      rcases unusable with few | many | absent | slow
      exacts [absurd (Or.inl few) allotment, absurd (Or.inr many) allotment, absurd absent link, if_pos slow]

theorem insertClass_usable (valid : s.ValidPri p) (usable : ¬s.Unusable p) : s.insertClass addallot w p =
    (addallot ((s.joined p).rated p) w (s.cls p).pri (s.cls p).allotment).map fun w =>
      if (s.cls p).level ≤ 0 ∨ (s.cls p).level > MAXLEVEL then (false, (s.joined p).rated p, w)
      else (true, ((s.joined p).rated p).addLevel p, w) := by
  obtain ⟨low, high⟩ := valid
  simp only [Unusable, not_or] at usable
  rw [insertClass, if_neg (by omega), if_neg fun either => either.elim usable.1 usable.2.1, if_neg usable.2.2.1, if_neg usable.2.2.2]

theorem insertClass_badLevel (valid : s.ValidPri p) (usable : ¬s.Unusable p) (level : s.BadLevel p) : s.insertClass addallot w p =
    (addallot ((s.joined p).rated p) w (s.cls p).pri (s.cls p).allotment).map fun w => (false, (s.joined p).rated p, w) := by
  rw [insertClass_usable valid usable]
  exact congrArg (Option.map · _) (funext fun w => if_pos level)

theorem insertClass_goodLevel (valid : s.ValidPri p) (usable : ¬s.Unusable p) (level : ¬s.BadLevel p) : s.insertClass addallot w p =
    (addallot ((s.joined p).rated p) w (s.cls p).pri (s.cls p).allotment).map fun w => (true, ((s.joined p).rated p).addLevel p, w) := by
  rw [insertClass_usable valid usable]
  exact congrArg (Option.map · _) (funext fun w => if_neg level)

/-- When a failed insertion leaves everything as it was. -/
theorem failed_kept_iff : (∀ t v, s.insertClass addallot w p = some (false, t, v) → s.Kept t ∧ v = w) ↔
    (s.ValidPri p → (s.Unusable p → (s.cls p).q = true → s.Rejoins p) ∧ (¬s.Unusable p → s.BadLevel p →
      ∀ v, addallot ((s.joined p).rated p) w (s.cls p).pri (s.cls p).allotment = some v → ((s.cls p).q = true → s.Rejoins p) ∧ v = w)) := by
  by_cases valid : s.ValidPri p
  · rw [forall_prop_of_true valid]
    by_cases unusable : s.Unusable p
    · rw [insertClass_unusable valid unusable, forall_prop_of_true unusable, ← kept_joined,
        and_iff_left fun usable => absurd unusable usable]
      refine ⟨fun kept => (kept _ _ rfl).1, fun kept t v same => ?_⟩
      cases same
      exact ⟨kept, rfl⟩
    · rw [and_iff_right fun is => absurd is unusable, forall_prop_of_true unusable, ← kept_rated]
      by_cases level : s.BadLevel p
      · rw [insertClass_badLevel valid unusable level, forall_prop_of_true level]
        constructor
        · intro kept v done
          exact kept _ v (by rw [done]; rfl)
        · intro kept t v answer
          obtain ⟨v', done, same⟩ := Option.map_eq_some_iff.mp answer
          cases same
          exact kept v done
      · rw [insertClass_goodLevel valid unusable level]
        refine iff_of_true (fun t v answer => ?_) fun bad => absurd bad level
        obtain ⟨_, _, wrong⟩ := Option.map_eq_some_iff.mp answer
        cases wrong
  · rw [insertClass_invalid valid]
    refine iff_of_true (fun t v same => ?_) fun good => absurd good valid
    cases same
    exact ⟨Kept.refl s, rfl⟩

end Ways

/-- Without allotment sums, only joining a ring changes anything. -/
theorem kept_iff (s : CBQueue ι) (p : ι) : (∀ t, s.insertClass noAllot () p = some (false, t, ()) → s.Kept t) ↔
    (s.ValidPri p → s.Unusable p ∨ s.BadLevel p → (s.cls p).q = true → s.Rejoins p) := by
  have only : (∀ t v, s.insertClass noAllot () p = some (false, t, v) → s.Kept t ∧ v = ()) ↔
      ∀ t, s.insertClass noAllot () p = some (false, t, ()) → s.Kept t :=
    ⟨fun all t answer => (all t () answer).1, fun all t v answer => ⟨all t answer, rfl⟩⟩
  rw [← only, failed_kept_iff]
  refine forall_congr' fun _ => ⟨fun both fails => ?_, fun kept => ⟨fun unusable => kept (Or.inl unusable), fun _ level v _ => ⟨kept (Or.inr level), rfl⟩⟩⟩
  by_cases unusable : s.Unusable p
  · exact both.1 unusable
  · exact (both.2 unusable (fails.resolve_left unusable) () rfl).1

/-- The priorities and the allotments are as before. -/
def SameShares (s t : CBQueue ι) : Prop := ∀ x, (t.cls x).pri = (s.cls x).pri ∧ (t.cls x).allotment = (s.cls x).allotment

omit [DecidableEq ι] in
theorem SameShares.trans {r : CBQueue ι} (first : SameShares r s) (second : SameShares s t) : SameShares r t :=
  fun x => ⟨(second x).1.trans (first x).1, (second x).2.trans (first x).2⟩

theorem sameShares_modify {x : ι} {f : CBQClass ι → CBQClass ι} (pri : (f (s.cls x)).pri = (s.cls x).pri)
    (allotment : (f (s.cls x)).allotment = (s.cls x).allotment) : SameShares s (s.modify x f) := by
  intro y
  by_cases here : y = x
  · rw [here, modify_self]
    exact ⟨pri, allotment⟩
  · rw [modify_other here]
    exact ⟨rfl, rfl⟩

theorem sameShares_setPeer (s : CBQueue ι) (x : ι) (peer : Option ι) : SameShares s (s.setPeer x peer) := sameShares_modify rfl rfl

theorem sameShares_linkPeer (s : CBQueue ι) (p : ι) : SameShares s (s.linkPeer p) := by
  rw [linkPeer]
  cases s.active (s.cls p).pri with
  | none => exact sameShares_setPeer s p (some p)
  | some head => exact (sameShares_setPeer s p _).trans (sameShares_setPeer _ head (some p))

theorem sameShares_joined (s : CBQueue ι) (p : ι) : SameShares s (s.joined p) := by
  rw [joined]
  split_ifs
  · exact sameShares_linkPeer s p
  · exact fun x => ⟨rfl, rfl⟩

theorem sameShares_rated (s : CBQueue ι) (p : ι) : SameShares s ((s.joined p).rated p) :=
  (sameShares_joined s p).trans (sameShares_modify rfl rfl)

end CBQueue

namespace WRR

open CBQueue

variable {ι : Type u} {s t : CBQueue ι} {w v : WRR} {p : ι} {prio : ℤ} {diff : ℚ}

/-- `M_` is what `setM` would make it. -/
def Settled (s : CBQueue ι) (w : WRR) : Prop := ∀ i, 0 ≤ i → i ≤ s.maxprio → w.M i = w.quota s i

theorem setM_spec (done : w.setM s = some v) :
    v.alloc = w.alloc ∧ v.cnt = w.cnt ∧ ∀ i, v.M i = if 0 ≤ i ∧ i ≤ s.maxprio then w.quota s i else w.M i := by
  rw [setM] at done
  split_ifs at done
  cases Option.some.inj done
  exact ⟨rfl, rfl, fun _ => rfl⟩

theorem addallot_same_iff (done : w.addallot s prio diff = some v) : v = w ↔ diff = 0 ∧ w.Settled s := by
  obtain ⟨alloc, cnt, M⟩ := setM_spec done
  have zero_iff : v.alloc = w.alloc ↔ diff = 0 := by
    rw [alloc, Function.update_eq_self_iff, add_eq_left]
  constructor
  · rintro rfl
    have zero := zero_iff.mp rfl
    refine ⟨zero, fun i low high => ?_⟩
    rw [M, if_pos ⟨low, high⟩, zero, add_zero, Function.update_eq_self]
  · rintro ⟨zero, settled⟩
    refine WRR.ext (zero_iff.mpr zero) (funext fun i => ?_) cnt
    rw [M, zero, add_zero, Function.update_eq_self]
    split_ifs with inside
    · exact (settled i inside.1 inside.2).symm
    · rfl

variable [DecidableEq ι]

theorem insertClass_failed : w.insertClass s p = some (false, t, v) ↔ s.insertClass addallot w p = some (false, t, v) := by
  rw [WRR.insertClass]
  cases s.insertClass addallot w p with
  | none => exact iff_of_false (Option.some_ne_none _).symm (Option.some_ne_none _).symm
  | some answer =>
    obtain ⟨inserted, t', v'⟩ := answer
    cases inserted with
    | false => exact Iff.rfl
    | true =>
      refine iff_of_false (fun same => ?_) fun same => ?_
      · obtain ⟨_, _, wrong⟩ := Option.map_eq_some_iff.mp same
        cases wrong
      · cases same

omit [DecidableEq ι] in
theorem addallot_spec (done : w.addallot s prio diff = some v) :
    v.alloc = Function.update w.alloc prio (w.alloc prio + diff) ∧ v.cnt = w.cnt := by
  obtain ⟨alloc, cnt, _⟩ := setM_spec done
  exact ⟨alloc, cnt⟩

theorem settled_rated (rejoins : (s.cls p).q = true → s.Rejoins p) : w.Settled ((s.joined p).rated p) ↔ w.Settled s := by
  have kept : ((s.joined p).rated p).maxprio = s.maxprio := (kept_joined.mpr rejoins).maxprio
  have maxpkt : ((s.joined p).rated p).maxpkt = s.maxpkt := by
    rw [rated, joined, addPeer, linkPeer]
    cases s.active (s.cls p).pri <;> cases (s.cls p).q <;> rfl
  rw [Settled, Settled, kept]
  simp only [quota, maxpkt]

theorem kept_iff (s : CBQueue ι) (w : WRR) (p : ι) : (∀ t v, w.insertClass s p = some (false, t, v) → s.Kept t ∧ v = w) ↔
    (s.ValidPri p → (s.Unusable p → (s.cls p).q = true → s.Rejoins p) ∧
      (¬s.Unusable p → s.BadLevel p → w.addallot ((s.joined p).rated p) (s.cls p).pri (s.cls p).allotment ≠ none →
        ((s.cls p).q = true → s.Rejoins p) ∧ (s.cls p).allotment = 0 ∧ w.Settled s)) := by
  simp only [insertClass_failed, failed_kept_iff]
  refine forall_congr' fun _ => and_congr_right fun _ => forall_congr' fun _ => forall_congr' fun _ => ?_
  cases added : w.addallot ((s.joined p).rated p) (s.cls p).pri (s.cls p).allotment with
  | none => exact iff_of_true (fun v wrong => by cases wrong) fun wrong => absurd rfl wrong
  | some v =>
    rw [forall_prop_of_true (Option.some_ne_none v)]
    have exact_iff : ((s.cls p).q = true → s.Rejoins p) ∧ v = w ↔
        ((s.cls p).q = true → s.Rejoins p) ∧ (s.cls p).allotment = 0 ∧ w.Settled s :=
      and_congr_right fun rejoins => by rw [addallot_same_iff added, settled_rated rejoins]
    rw [← exact_iff]
    refine ⟨fun all => all v rfl, fun both v' same => ?_⟩
    cases same
    exact both

/-- What a class adds to the sums. -/
theorem insertClass_inserted (answer : w.insertClass s p = some (true, t, v)) : 0 ≤ (s.cls p).allotment ∧ SameShares s t ∧
    v.alloc = Function.update w.alloc (s.cls p).pri (w.alloc (s.cls p).pri + (s.cls p).allotment) ∧
    v.cnt = Function.update w.cnt (s.cls p).pri (w.cnt (s.cls p).pri + 1) := by
  obtain ⟨⟨inserted, t', v'⟩, base, more⟩ := Option.bind_eq_some_iff.mp answer
  cases inserted with
  | false => cases more
  | true =>
    obtain ⟨v'', counted, same⟩ := Option.map_eq_some_iff.mp more
    cases same
    have valid : s.ValidPri p := by
      by_contra invalid
      rw [insertClass_invalid invalid] at base
      cases base
    have usable : ¬s.Unusable p := by
      intro unusable
      rw [insertClass_unusable valid unusable] at base
      cases base
    have level : ¬s.BadLevel p := by
      intro level
      rw [insertClass_badLevel valid usable level] at base
      obtain ⟨_, _, wrong⟩ := Option.map_eq_some_iff.mp base
      cases wrong
    rw [insertClass_goodLevel valid usable level] at base
    obtain ⟨_, added, same⟩ := Option.map_eq_some_iff.mp base
    cases same
    obtain ⟨alloc, cnt⟩ := addallot_spec added
    obtain ⟨alloc', cnt', _⟩ := setM_spec counted
    have shares := sameShares_rated s p
    refine ⟨not_lt.mp fun few => usable (Or.inl few), shares, alloc'.trans alloc, ?_⟩
    rw [cnt', cnt]
    exact congrArg (fun pri => Function.update w.cnt pri (w.cnt pri + 1)) (shares p).1

/-- A class that fails has been added to no sum, or with nothing. -/
theorem insertClass_rejected (answer : w.insertClass s p = some (false, t, v))
    (nothing : s.ValidPri p → ¬s.Unusable p → s.BadLevel p → (s.cls p).allotment = 0) :
    SameShares s t ∧ v.alloc = w.alloc ∧ v.cnt = w.cnt := by
  have base := insertClass_failed.mp answer
  by_cases valid : s.ValidPri p
  · by_cases unusable : s.Unusable p
    · rw [insertClass_unusable valid unusable] at base
      cases base
      exact ⟨sameShares_joined s p, rfl, rfl⟩
    · by_cases level : s.BadLevel p
      · rw [insertClass_badLevel valid unusable level] at base
        obtain ⟨_, added, same⟩ := Option.map_eq_some_iff.mp base
        cases same
        obtain ⟨alloc, cnt⟩ := addallot_spec added
        refine ⟨sameShares_rated s p, ?_, cnt⟩
        rw [alloc, nothing valid unusable level, add_zero, Function.update_eq_self]
      · rw [insertClass_goodLevel valid unusable level] at base
        obtain ⟨_, _, wrong⟩ := Option.map_eq_some_iff.mp base
        cases wrong
  · rw [insertClass_invalid valid] at base
    cases base
    exact ⟨fun _ => ⟨rfl, rfl⟩, rfl, rfl⟩

end WRR

/-- A queue, and the classes that have been inserted successfully. -/
structure Deployment (ι : Type u) where
  queue : CBQueue ι
  wrr : WRR
  inserted : Finset ι

namespace Deployment

open CBQueue

variable {ι : Type u} [DecidableEq ι]

/-- Insertions, `newallot`, and settings of the fields of a class, of the link and of `maxpkt_`. -/
inductive Action (ι : Type u)
  | insert (p : ι)
  | newallot (p : ι) (bw : ℚ)
  | prepare (p : ι) (cl : CBQClass ι)
  | connect (link : Option ℚ)
  | bind (maxpkt : ℤ)

/-- The answer says whether the action succeeded. -/
def act (d : Deployment ι) : Action ι → Option (Deployment ι × Bool)
  | .insert p => (d.wrr.insertClass d.queue p).map fun answer =>
    (⟨answer.2.1, answer.2.2, if answer.1 then insert p d.inserted else d.inserted⟩, answer.1)
  | .newallot p bw => (d.wrr.newallot d.queue p bw).map fun answer => (⟨answer.1, answer.2, d.inserted⟩, true)
  | .prepare p cl => some ({ d with
      queue := d.queue.modify p fun old => { cl with peer := old.peer, maxrate := old.maxrate } }, true)
  | .connect link => some ({ d with queue := { d.queue with link } }, true)
  | .bind maxpkt => some ({ d with queue := { d.queue with maxpkt } }, true)

def machine : Machine (Deployment ι) (Action ι) Bool := ⟨act⟩

/-- A queue as it is constructed. -/
def make (cls : ι → CBQClass ι) (maxpkt : ℤ) : Deployment ι where
  queue := ⟨cls, fun _ => none, fun _ => [], -1, maxpkt, -1, MAXLEVEL, .none, none⟩
  wrr := ⟨fun _ => 0, fun _ => 0, fun _ => 0⟩
  inserted := ∅

/-- The classes inserted at a priority. -/
def atPri (d : Deployment ι) (i : ℤ) : Finset ι := d.inserted.filter fun p => (d.queue.cls p).pri = i

/-- `alloc_` and `cnt_` are the sums. -/
structure Sums (d : Deployment ι) : Prop where
  alloc : ∀ i, d.wrr.alloc i = ∑ p ∈ d.atPri i, (d.queue.cls p).allotment
  cnt : ∀ i, d.wrr.cnt i = (d.atPri i).card
  nonneg : ∀ p ∈ d.inserted, 0 ≤ (d.queue.cls p).allotment

/-- No class is inserted again, none is rejected for its level with an allotment that counts, and only `newallot` changes a class that
has been inserted, and no other. -/
def Orderly (d : Deployment ι) : Action ι → Prop
  | .insert p => p ∉ d.inserted ∧ (d.queue.ValidPri p → ¬d.queue.Unusable p → d.queue.BadLevel p → (d.queue.cls p).allotment = 0)
  | .newallot p _ => p ∈ d.inserted
  | .prepare p _ => p ∉ d.inserted
  | .connect _ => True
  | .bind _ => True

variable {d e : Deployment ι} {p : ι}

omit [DecidableEq ι] in
theorem Sums.congr (sums : d.Sums) (inserted : e.inserted = d.inserted) (pri : ∀ p ∈ d.inserted, (e.queue.cls p).pri = (d.queue.cls p).pri)
    (allotment : ∀ p ∈ d.inserted, (e.queue.cls p).allotment = (d.queue.cls p).allotment) (alloc : e.wrr.alloc = d.wrr.alloc)
    (cnt : e.wrr.cnt = d.wrr.cnt) : e.Sums := by
  have atPri (i : ℤ) : e.atPri i = d.atPri i := by
    rw [Deployment.atPri, Deployment.atPri, inserted]
    exact Finset.filter_congr fun p member => by rw [pri p member]
  refine ⟨fun i => ?_, fun i => ?_, fun p member => ?_⟩
  · rw [alloc, atPri, sums.alloc]
    exact Finset.sum_congr rfl fun p member => (allotment p (Finset.mem_of_mem_filter p member)).symm
  · rw [cnt, atPri, sums.cnt]
  · rw [inserted] at member
    rw [allotment p member]
    exact sums.nonneg p member

theorem Sums.insert (sums : d.Sums) (absent : p ∉ d.inserted) (nonneg : 0 ≤ (d.queue.cls p).allotment) {t : CBQueue ι} {v : WRR}
    (shares : SameShares d.queue t)
    (alloc : v.alloc = Function.update d.wrr.alloc (d.queue.cls p).pri (d.wrr.alloc (d.queue.cls p).pri + (d.queue.cls p).allotment))
    (cnt : v.cnt = Function.update d.wrr.cnt (d.queue.cls p).pri (d.wrr.cnt (d.queue.cls p).pri + 1)) :
    Sums ⟨t, v, insert p d.inserted⟩ := by
  have atPri (i : ℤ) : Deployment.atPri ⟨t, v, Insert.insert p d.inserted⟩ i =
      if (d.queue.cls p).pri = i then Insert.insert p (d.atPri i) else d.atPri i := by
    simp only [Deployment.atPri, (shares _).1, Finset.filter_insert]
  have apart (i : ℤ) : p ∉ d.atPri i := fun member => absent (Finset.mem_of_mem_filter p member)
  refine ⟨fun i => ?_, fun i => ?_, fun q member => ?_⟩
  · simp only [atPri, alloc, (shares _).2]
    by_cases here : (d.queue.cls p).pri = i
    · rw [if_pos here, Finset.sum_insert (apart i), ← here, Function.update_self, sums.alloc, add_comm]
    · rw [if_neg here, Function.update_of_ne (Ne.symm here), sums.alloc]
  · simp only [atPri, cnt]
    by_cases here : (d.queue.cls p).pri = i
    · rw [if_pos here, Finset.card_insert_of_notMem (apart i), ← here, Function.update_self, sums.cnt]
      rfl
    · rw [if_neg here, Function.update_of_ne (Ne.symm here), sums.cnt]
  · rw [(shares q).2]
    rcases Finset.mem_insert.mp member with rfl | old
    · exact nonneg
    · exact sums.nonneg q old

/-- A new allotment changes the sum by the difference. -/
theorem Sums.newallot (sums : d.Sums) (member : p ∈ d.inserted) {bw : ℚ} {t : CBQueue ι} {v : WRR}
    (answer : d.wrr.newallot d.queue p bw = some (t, v)) : Sums ⟨t, v, d.inserted⟩ := by
  obtain ⟨bandwidth, _, rest⟩ := Option.bind_eq_some_iff.mp answer
  obtain ⟨_, added, same⟩ := Option.map_eq_some_iff.mp rest
  cases same
  obtain ⟨alloc, cnt⟩ := WRR.addallot_spec added
  rw [if_neg (not_lt.mpr (sums.nonneg p member))] at alloc
  have floor : 0 ≤ if bw < 0 then 0 else bw := by
    split_ifs with low
    · exact le_rfl
    · exact not_lt.mp low
  generalize (if bw < 0 then 0 else bw) = granted at alloc floor ⊢
  let t := d.queue.modify p fun cl => { cl with allotment := granted, maxrate := granted * (bandwidth / 8) }
  have atP : (t.cls p).allotment = granted := congrArg CBQClass.allotment modify_self
  have other {q : ι} (apart : q ≠ p) : t.cls q = d.queue.cls q := modify_other apart
  have pri (q : ι) : (t.cls q).pri = (d.queue.cls q).pri := by
    by_cases here : q = p
    · rw [here]
      simp only [t, modify_self]
    · rw [other here]
  have atPri (i : ℤ) : Deployment.atPri ⟨t, v, d.inserted⟩ i = d.atPri i := by simp only [Deployment.atPri, pri]
  have change : v.alloc = Function.update d.wrr.alloc (d.queue.cls p).pri
      (d.wrr.alloc (d.queue.cls p).pri + (granted - (d.queue.cls p).allotment)) := pri p ▸ alloc
  refine ⟨fun i => ?_, fun i => ?_, fun q inside => ?_⟩
  · show v.alloc i = ∑ q ∈ Deployment.atPri ⟨t, v, d.inserted⟩ i, (t.cls q).allotment
    rw [atPri, change]
    by_cases here : (d.queue.cls p).pri = i
    · have inside : p ∈ d.atPri i := Finset.mem_filter.mpr ⟨member, here⟩
      have rest : ∑ q ∈ (d.atPri i).erase p, (t.cls q).allotment = ∑ q ∈ (d.atPri i).erase p, (d.queue.cls q).allotment :=
        Finset.sum_congr rfl fun q apart => by rw [other (Finset.ne_of_mem_erase apart)]
      rw [← Finset.add_sum_erase _ _ inside, rest, atP, here, Function.update_self, sums.alloc, ← Finset.add_sum_erase _ _ inside]
      ring
    · have absent {q : ι} (inside : q ∈ d.atPri i) : q ≠ p := fun same => here (same ▸ (Finset.mem_filter.mp inside).2)
      rw [Function.update_of_ne (Ne.symm here), sums.alloc]
      exact Finset.sum_congr rfl fun q inside => by rw [other (absent inside)]
  · show v.cnt i = ((Deployment.atPri ⟨t, v, d.inserted⟩ i).card : ℤ)
    rw [atPri, cnt, sums.cnt]
  · by_cases here : q = p
    · rw [here]
      exact floor.trans_eq atP.symm
    · exact (sums.nonneg q inside).trans_eq (congrArg CBQClass.allotment (other here).symm)

theorem Sums.act (sums : d.Sums) {action : Action ι} (orderly : d.Orderly action) {out : Bool} (taken : d.act action = some (e, out)) :
    e.Sums := by
  cases action with
  | insert p =>
    obtain ⟨⟨inserted, t, v⟩, answer, same⟩ := Option.map_eq_some_iff.mp taken
    cases same
    cases inserted with
    | true =>
      obtain ⟨nonneg, shares, alloc, cnt⟩ := WRR.insertClass_inserted answer
      exact sums.insert orderly.1 nonneg shares alloc cnt
    | false =>
      obtain ⟨shares, alloc, cnt⟩ := WRR.insertClass_rejected answer orderly.2
      exact sums.congr rfl (fun p _ => (shares p).1) (fun p _ => (shares p).2) alloc cnt
  | newallot p bw =>
    obtain ⟨⟨t, v⟩, answer, same⟩ := Option.map_eq_some_iff.mp taken
    cases same
    exact sums.newallot orderly answer
  | prepare p cl =>
    cases taken
    have other (q : ι) (member : q ∈ d.inserted) : q ≠ p := fun same => orderly (same ▸ member)
    refine sums.congr rfl (fun q member => ?_) (fun q member => ?_) rfl rfl
    · simp only [modify_other (other q member)]
    · simp only [modify_other (other q member)]
  | connect link =>
    cases taken
    exact sums.congr rfl (fun _ _ => rfl) (fun _ _ => rfl) rfl rfl
  | bind maxpkt =>
    cases taken
    exact sums.congr rfl (fun _ _ => rfl) (fun _ _ => rfl) rfl rfl

omit [DecidableEq ι] in
theorem sums_make (cls : ι → CBQClass ι) (maxpkt : ℤ) : (make cls maxpkt).Sums := ⟨fun _ => rfl, fun _ => rfl, fun p member => by cases member⟩

/-- When a rejected class leaves the queue and the sums as they were, and that in orderly runs the sums are those of the inserted classes. -/
theorem insertions_iff : (∀ (s : CBQueue ι) (p : ι), (∀ t, s.insertClass noAllot () p = some (false, t, ()) → s.Kept t) ↔
      (s.ValidPri p → s.Unusable p ∨ s.BadLevel p → (s.cls p).q = true → s.Rejoins p)) ∧
    (∀ (s : CBQueue ι) (w : WRR) (p : ι), (∀ t v, w.insertClass s p = some (false, t, v) → s.Kept t ∧ v = w) ↔
      (s.ValidPri p → (s.Unusable p → (s.cls p).q = true → s.Rejoins p) ∧
        (¬s.Unusable p → s.BadLevel p → w.addallot ((s.joined p).rated p) (s.cls p).pri (s.cls p).allotment ≠ none →
          ((s.cls p).q = true → s.Rejoins p) ∧ (s.cls p).allotment = 0 ∧ w.Settled s))) ∧
    ∀ cls maxpkt actions (d : Deployment ι) outs, machine.Along Orderly (make cls maxpkt) actions →
      machine.run (make cls maxpkt) actions = some (d, outs) → d.Sums := by
  refine ⟨CBQueue.kept_iff, WRR.kept_iff, fun cls maxpkt actions d outs orderly run => ?_⟩
  exact Machine.run_kept (fun d action e out sums orderly taken => sums.act orderly taken) (sums_make cls maxpkt) orderly run

/-- A leaf of priority 0 with a queue. -/
def sampleClass (allotment : ℚ) (level : ℤ) : CBQClass Bool := ⟨none, none, true, 1, allotment, 0, 0, 0, level, true⟩

def sampleActions : List (Action Bool) := [.connect (some 8000), .insert true]

theorem insertions_iff_sample : ∃ d, machine.run (make (fun _ => sampleClass (1 / 4) 1) 1000) sampleActions = some (d, [true, true]) ∧ d.Sums := by
  have known : (machine.run (make (fun _ => sampleClass (1 / 4) 1) 1000) sampleActions).map Prod.snd = some [true, true] := by decide +kernel
  have run := Machine.eq_some_of_answer (make (fun _ => sampleClass 0 1) 1000) known
  have orderly : machine.Along Orderly (make (fun _ => sampleClass (1 / 4) 1) 1000) sampleActions :=
    ⟨trivial, ⟨Finset.notMem_empty true, fun _ _ level => absurd level (by rw [BadLevel]; decide)⟩, by split <;> trivial⟩
  exact ⟨_, run, insertions_iff.2.2 _ _ _ _ _ orderly run⟩

/-- A class with twice the link is rejected and scheduled; one of level 0 is rejected and has its allotment counted. -/
theorem rejected_scheduled :
    (∃ t, CBQueue.insertClass noAllot { (make (fun _ => sampleClass 2 1) 1000).queue with link := some 8000 } () true = some (false, t, ()) ∧
      t.active 0 = some true ∧ ¬CBQueue.Kept { (make (fun _ => sampleClass 2 1) 1000).queue with link := some 8000 } t) ∧
    ∃ d, machine.run (make (fun _ => sampleClass (1 / 4) 0) 1000) sampleActions = some (d, [true, false]) ∧ d.inserted = ∅ ∧
      d.wrr.alloc 0 = 1 / 4 ∧ ¬d.Sums := by
  constructor
  · refine ⟨_, insertClass_unusable ⟨by decide, by decide⟩ (Or.inr (Or.inl (by decide +kernel))), rfl, fun kept => ?_⟩
    cases congrFun kept.active 0
  · have known : (machine.run (make (fun _ => sampleClass (1 / 4) 0) 1000) sampleActions).map
        (fun answer => (decide (answer.1.inserted = ∅ ∧ answer.1.wrr.alloc 0 = 1 / 4), answer.2)) = some (true, [true, false]) := by
      decide +kernel
    obtain ⟨⟨d, outs⟩, run, same⟩ := Option.map_eq_some_iff.mp known
    obtain ⟨held, rfl⟩ := Prod.mk.inj same
    obtain ⟨nobody, counted⟩ := of_decide_eq_true held
    refine ⟨d, run, nobody, counted, fun sums => ?_⟩
    have zero := sums.alloc 0
    rw [atPri, nobody, Finset.filter_empty, Finset.sum_empty, counted] at zero
    exact absurd zero (by decide +kernel)

end Deployment

end Ns2
