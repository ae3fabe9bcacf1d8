import Mathlib.Algebra.Order.Floor.Semifield
import Mathlib.Data.List.DropRight
import Mathlib.Data.Rat.Floor
import Mathlib.Tactic.Linarith
import Ns2.Common.ListScheduler
import Ns2.Library.Calendar

namespace Ns2

/-- `CalendarScheduler::Bucket`, with its ring of events from `list_` on. -/
structure Bucket where
  list : List Event
  count : ℤ
deriving DecidableEq

/-- The widths that a call of `resize` computes: the rescaled one of the buckets, and the one that
`newwidth` returns. -/
structure Widths where
  rescaled : {w : ℚ // 0 < w}
  sampled : {w : ℚ // 0 < w}

structure CalendarScheduler where
  minBinWidth : ℚ
  adjustNewWidthInterval : ℕ
  timeToNewwidth : ℕ
  headSearch : ℕ
  insertSearch : ℕ
  roundNum : ℕ
  gapNum : ℤ
  lastTime : ℚ
  width : ℚ
  diff0 : ℚ
  diff1 : ℚ
  diff2 : ℚ
  statQsize : ℤ
  nbuckets : ℕ
  lastbucket : ℕ
  topThreshold : ℤ
  botThreshold : ℤ
  buckets : ℕ → Bucket
  qsize : ℤ
  calClock : ℚ

namespace CalendarScheduler

def truncate (x : ℚ) : ℤ := if 0 ≤ x then ⌊x⌋ else ⌈x⌉

def fmod (x y : ℚ) : ℚ := x - truncate (x / y) * y

/-- `CALENDAR_HASH`; it is no index of a bucket when the time is negative. -/
def hash (s : CalendarScheduler) (t : ℚ) : ℕ := (truncate (fmod (t / s.width) s.nbuckets)).toNat

def reinit (s : CalendarScheduler) (nbuck : ℕ) (bwidth start : ℚ) : CalendarScheduler :=
  let s := { s with buckets := fun _ => ⟨[], 0⟩, width := bwidth, nbuckets := nbuck, qsize := 0, statQsize := 0 }
  { s with
    lastbucket := s.hash start
    diff0 := bwidth * nbuck / 2
    diff1 := bwidth * nbuck / 2 + bwidth
    diff2 := bwidth * nbuck
    botThreshold := (nbuck / 2 : ℕ) - 2
    topThreshold := (nbuck * 2 : ℕ) }

/-- The constructor, with `cal_clock_` at `SCHED_START`. The counters that it leaves alone when
`adjust_new_width_interval_` is 0 are not read then. -/
def make (minBinWidth : ℚ) (adjustNewWidthInterval : ℕ) : CalendarScheduler :=
  reinit
    { minBinWidth, adjustNewWidthInterval, timeToNewwidth := adjustNewWidthInterval, headSearch := 0, insertSearch := 0
      roundNum := 0, gapNum := 0, lastTime := -2, width := 0, diff0 := 0, diff1 := 0, diff2 := 0, statQsize := 0
      nbuckets := 0, lastbucket := 0, topThreshold := 0, botThreshold := 0, buckets := fun _ => ⟨[], 0⟩, qsize := 0
      calClock := 0 }
    4 1 0

/-- A bucket gets another ring, and the counters follow. -/
def setBucket (s : CalendarScheduler) (i : ℕ) (list : List Event) (priorities events : ℤ) : CalendarScheduler :=
  { s with
    buckets := Function.update s.buckets i ⟨list, (s.buckets i).count + priorities⟩
    statQsize := s.statQsize + priorities
    qsize := s.qsize + events }

/-- Where an event goes in a ring, whether it is the only one of its time there, and the steps of the search. -/
structure Place where
  before : List Event
  after : List Event
  unique : Bool
  searched : ℕ

def frontPlace (e : Event) (before after : List Event) : Place :=
  ⟨before, after, ∀ next ∈ (after ++ before).head?, next.time ≠ e.time, 0⟩

/-- The search of `insert2`, before all events of the same time. -/
def findFront (e : Event) : List Event → Place
  | [] => ⟨[], [], true, 0⟩
  | head :: rest =>
    let list := head :: rest
    if ∀ tail ∈ list.getLast?, e.time > tail.time then frontPlace e list []
    else frontPlace e (list.takeWhile (·.time < e.time)) (list.dropWhile (·.time < e.time))

def insert2 (s : CalendarScheduler) (e : Event) : CalendarScheduler :=
  let i := s.hash e.time
  let place := findFront e (s.buckets i).list
  s.setBucket i (place.before ++ e :: place.after) (if place.unique then 1 else 0) 1

/-- `resize` from `reinit` on. Each bucket is emptied from its end. -/
def rehash (s : CalendarScheduler) (newsize : ℕ) (bwidth start : ℚ) : CalendarScheduler :=
  { (Calendar.pages (fun i => (s.buckets i).list) s.nbuckets).foldl insert2 (s.reinit newsize bwidth start) with
    headSearch := 0
    insertSearch := 0
    roundNum := 0 }

/-- What `newwidth` does to the scheduler; the width that it returns is a parameter. -/
def newwidth (s : CalendarScheduler) : CalendarScheduler :=
  if s.adjustNewWidthInterval ≠ 0 then { s with timeToNewwidth := s.adjustNewWidthInterval } else s

def resize (s : CalendarScheduler) (newsize : ℕ) (start : ℚ) (w : Widths) : CalendarScheduler :=
  if newsize = s.nbuckets then
    if w.rescaled < s.minBinWidth then
      if s.timeToNewwidth > 0 then
        { s with timeToNewwidth := s.timeToNewwidth - 1, headSearch := 0, insertSearch := 0, roundNum := 0 }
      else s.newwidth.rehash newsize w.sampled start
    else s.rehash newsize w.rescaled start
  else s.newwidth.rehash (if newsize < 4 then 4 else newsize) w.sampled start

/-- The search of `insert`, behind all events of the same time. -/
def findBack (e : Event) : List Event → Place
  | [] => ⟨[], [], true, 0⟩
  | head :: rest =>
    let list := head :: rest
    if e.time < head.time then ⟨[], list, true, 1⟩
    else
      let before := list.rdropWhile (e.time < ·.time)
      let after := list.rtakeWhile (e.time < ·.time)
      ⟨before, after, ∀ last ∈ before.getLast?, last.time < e.time, 1 + after.length⟩

/-- `insert` up to the check of the size. -/
def link (s : CalendarScheduler) (e : Event) : CalendarScheduler :=
  let i := s.hash e.time
  let place := findBack e (s.buckets i).list
  { s.setBucket i (place.before ++ e :: place.after) (if place.unique then 1 else 0) 1 with
    insertSearch := s.insertSearch + place.searched }

/-- An event earlier than `cal_clock_` takes it back. -/
def setBack (s : CalendarScheduler) (newtime : ℚ) : CalendarScheduler :=
  if s.calClock > newtime then { s with calClock := newtime, lastbucket := s.hash newtime } else s

def insert (s : CalendarScheduler) (e : Event) (w : Widths) : CalendarScheduler :=
  let s := (s.setBack e.time).link e
  if s.statQsize > s.topThreshold then s.resize (s.nbuckets * 2) s.calClock w else s

/-- The variables of `head`: `l` is `none` for -1. -/
structure Search where
  headSearch : ℕ
  l : Option ℕ
  i : ℕ
  minE : Option Event

/-- `CAL_DEQUEUE`, with the event and the bucket that it jumps to `found_l` with on the left. -/
def calDequeue (s : CalendarScheduler) (diff : ℚ) (v : Search) : (Search × Event) ⊕ Search :=
  let next := if v.i + 1 = s.nbuckets then 0 else v.i + 1
  let v := { v with headSearch := v.headSearch + 1 }
  match (s.buckets v.i).list with
  | [] => .inr { v with i := next }
  | e :: _ =>
    if e.time - s.calClock < diff then .inl ({ v with l := some v.i }, e)
    else if ∀ m ∈ v.minE, m.time > e.time then .inr { v with minE := some e, l := some v.i, i := next }
    else .inr { v with i := next }

/-- The last bucket is left unchecked: the minimum is taken. `none` is a failed assertion or a read through NULL. -/
def takeMin (s : CalendarScheduler) (v : Search) : Option (Search × Event) :=
  match v.minE, (s.buckets v.i).list with
  | some m, [] => some (v, m)
  | some m, e :: _ => some (if m.time < e.time then (v, m) else ({ v with l := some v.i }, e))
  | none, e :: _ => some ({ v with l := some v.i }, e)
  | none, [] => none

/-- The loop of `head`, of at most the given number of rounds. -/
def searchOn (s : CalendarScheduler) (lastbucketDec : ℕ) : ℕ → Search → Option (Search × Event)
  | 0, _ => none
  | rounds + 1, v =>
    if v.i = lastbucketDec then s.takeMin v
    else
      match s.calDequeue s.diff2 v with
      | .inl found => some found
      | .inr v => searchOn s lastbucketDec rounds v

def search (s : CalendarScheduler) : Option (Search × Event) :=
  match s.calDequeue s.diff0 ⟨s.headSearch, none, s.lastbucket, none⟩ with
  | .inl found => some found
  | .inr v =>
    match s.calDequeue s.diff1 v with
    | .inl found => some found
    | .inr v => s.searchOn (if s.lastbucket ≠ 0 then s.lastbucket - 1 else s.nbuckets - 1) s.nbuckets v

def head (s : CalendarScheduler) : Option (CalendarScheduler × Option Event) :=
  if s.qsize = 0 then some (s, none)
  else do
    let (v, e) ← s.search
    let l ← v.l
    return ({ s with headSearch := v.headSearch, lastbucket := l, calClock := e.time }, some e)

/-- The automatic adjustment of the width in `deque`. -/
def adjust (s : CalendarScheduler) (e : Event) (w : Widths) : CalendarScheduler :=
  if s.adjustNewWidthInterval = 0 then s
  else if s.lastTime < 0 then { s with lastTime := e.time }
  else if s.gapNum + 1 ≥ s.qsize then
    let s := { s with gapNum := 0, lastTime := e.time, roundNum := s.roundNum + 1 }
    if s.roundNum > 20 ∧ (s.headSearch > s.insertSearch * 2 ∨ s.insertSearch > s.headSearch * 2) then
      { s.resize s.nbuckets s.calClock w with roundNum := 0 }
    else if s.roundNum > 100 then { s with roundNum := 0, headSearch := 0, insertSearch := 0 }
    else s
  else { s with gapNum := s.gapNum + 1 }

/-- The head `e` of the bucket at `lastbucket_` is taken off its ring. -/
def unlinkHead (s : CalendarScheduler) (e : Event) : Option CalendarScheduler :=
  match (s.buckets s.lastbucket).list with
  | [] => none
  | head :: rest =>
    if head = e then
      let unique : Bool := ∀ next ∈ rest.head?, next.time ≠ e.time
      some (s.setBucket s.lastbucket rest (if unique then -1 else 0) (-1))
    else none

/-- The first widths are for the adjustment, the second ones for the resize at the end. -/
def deque (s : CalendarScheduler) (w w' : Widths) : Option (CalendarScheduler × Option Event) := do
  let (s, found) ← s.head
  match found with
  | none => return (s, none)
  | some e =>
    let s ← (s.adjust e w).unlinkHead e
    return (if s.statQsize < s.botThreshold then s.resize (s.nbuckets / 2) s.calClock w' else s, some e)

/-- The place of a queued event in its ring. -/
def findEvent (e : Event) (list : List Event) : Place :=
  let before := list.takeWhile (· ≠ e)
  let after := (list.dropWhile (· ≠ e)).tail
  -- The other events of the ring, from `e->next_` to `e->prev_`.
  let others := after ++ before
  ⟨before, after, (∀ next ∈ others.head?, next.time ≠ e.time) ∧ ∀ prev ∈ others.getLast?, prev.time ≠ e.time, 0⟩

/-- `none` is a failed assertion, or an event that is on no ring of its bucket. -/
def cancel (s : CalendarScheduler) (e : Event) : Option CalendarScheduler :=
  if e.uid ≤ 0 then some s
  else
    let i := s.hash e.time
    if e ∈ (s.buckets i).list then
      let place := findEvent e (s.buckets i).list
      let next := s.setBucket i (place.before ++ place.after) (if place.unique then -1 else 0) (-1)
      if place.unique ∧ (next.statQsize < 0 ∨ (next.buckets i).count < 0) then none
      else if (next.buckets i).count = 0 ∧ (next.buckets i).list ≠ [] then none
      else some next
    else none

/-- The calls, each with the widths of the resizes that it may cause. -/
def machine : Machine CalendarScheduler (SchedulerOp × Widths × Widths) (Option Event) where
  step s
    | (.insert e, _, w) => some (s.insert e w, none)
    | (.cancel e, _) => (s.cancel e).map (·, none)
    | (.head, _) => s.head
    | (.deque, w, w') => s.deque w w'

end CalendarScheduler

end Ns2
