import Ns2.Library.BubbleSort
import Ns2.Queue.FlowTable
import Mathlib.Algebra.Order.Ring.Rat
import Mathlib.Data.Rat.Floor
import Mathlib.Tactic.Linarith
import Mathlib.Tactic.NormNum

namespace Ns2

/-- `shape`, `Lf` and `weight` are the decimals of the source as rationals. -/
structure PacketPDWRR where
  queue : PacketQueue
  pkts : ℤ
  pcount : ℤ
  bcount : ℤ
  deficitCounter : ℤ
  site : ℕ
  turn : Bool
  weight : ℚ
  shape : ℚ
  Lf : ℚ
  S : ℚ
  t0 : ℚ
  wt : ℚ
  pktOne : ℕ → ℤ
  tflag : ℕ

/-- `links` are the `prev` and `next` of the flows, `clock` is that of the scheduler. -/
structure PDWRR where
  blimit : ℕ
  quantum : ℤ
  pdwrr : ℕ → PacketPDWRR
  links : Links ℕ
  curr : Option ℕ
  bytecnt : ℤ
  flwcnt : ℤ
  levels : List ℚ
  cerprique : ℕ
  onTime : ℕ → ℚ
  offTime : ℕ → ℚ
  predequeSite : ℕ
  clock : ℚ

/-- A square root, of which only the sign is used. -/
abbrev Sqrt := { sqrt : ℚ → ℚ // ∀ x, 0 ≤ sqrt x }

namespace PacketPDWRR

def timeSection : ℕ := 5

def make : PacketPDWRR where
  queue := []
  pkts := 0
  pcount := 0
  bcount := 0
  deficitCounter := 0
  site := 0
  turn := false
  weight := 0
  shape := 6 / 5
  Lf := 0
  S := 0
  t0 := 0
  wt := 0
  pktOne := fun _ => 0
  tflag := 0

/-- The six levels of one traffic class, in the order in which `forecastL` compares. -/
structure Levels where
  below4 : ℚ
  below2 : ℚ
  below : ℚ
  above : ℚ
  above2 : ℚ
  above4 : ℚ

def Levels.pick (levels : Levels) (Ex Dx Vk : ℚ) (Lf : ℚ) : ℚ :=
  if Vk < Ex - 4 * Dx then levels.below4
  else if Vk ≥ Ex - 4 * Dx ∧ Vk < Ex - 2 * Dx then levels.below2
  else if Vk ≥ Ex - 2 * Dx ∧ Vk < Ex then levels.below
  else if Vk ≥ Ex ∧ Vk < Ex + 2 * Dx then levels.above
  else if Vk ≥ Ex + 2 * Dx ∧ Vk < Ex + 4 * Dx then levels.above2
  else if Vk ≥ Ex + 4 * Dx then levels.above4
  else Lf

def forecastLf (shape Ex Dx Vk Lf : ℚ) : ℚ :=
  if shape = 6 / 5 then Levels.pick ⟨3 / 2, 27 / 10, 18 / 5, 4, 41 / 10, 24 / 5⟩ Ex Dx Vk Lf
  else if shape = 7 / 5 then Levels.pick ⟨8 / 5, 27 / 10, 17 / 5, 19 / 5, 4, 47 / 10⟩ Ex Dx Vk Lf
  else if shape = 8 / 5 then Levels.pick ⟨2, 29 / 10, 17 / 5, 18 / 5, 19 / 5, 9 / 2⟩ Ex Dx Vk Lf
  else Lf

def forecastL (sqrt : Sqrt) (q : PacketPDWRR) : PacketPDWRR :=
  let Ex : ℚ := (q.pktOne timeSection - q.pktOne 0) / timeSection
  let Vk := Ex
  let square (i : ℕ) : ℚ := (q.pktOne (i + 1) - q.pktOne i - Ex) ^ 2
  let Dx := sqrt.val (((List.range 5).map square).sum / timeSection)
  let shape := if q.site = 1 then 6 / 5 else if q.site = 2 then 7 / 5 else if q.site = 3 then 8 / 5 else q.shape
  let Lf := forecastLf shape Ex Dx Vk q.Lf
  let dw := if Lf < 3 then (Lf - 3) / 2 else if Lf ≥ 3 ∧ Lf ≤ 4 then 0 else (Lf - 4) / 2
  { q with shape := shape, Lf := Lf, weight := q.weight + dw }

/-- What the first packet of flow `which` sets. -/
def first (which : ℕ) (curtime : ℚ) (q : PacketPDWRR) : PacketPDWRR :=
  let q := if which = 1 then { q with weight := 3, shape := 6 / 5 }
    else if which = 2 then { q with weight := 2, shape := 7 / 5 }
    else if which = 3 then { q with weight := 1, shape := 8 / 5 }
    else q
  { q with S := q.weight, t0 := curtime, pktOne := Function.update q.pktOne 0 0 }

/-- The record of the packets of the last seconds, and the forecast from it. -/
def record (sqrt : Sqrt) (curtime : ℚ) (q : PacketPDWRR) : PacketPDWRR :=
  if curtime ≥ q.t0 + 1 then
    let q := { q with pktOne := Function.update q.pktOne q.tflag (if q.pcount = 0 then 0 else q.pcount - 1) }
    let q := if q.tflag = timeSection then { q.forecastL sqrt with tflag := 0 } else { q with tflag := q.tflag + 1 }
    { q with t0 := curtime }
  else q

/-- The conversion of a `double` to an `int`. -/
def truncate (x : ℚ) : ℤ := x.num.tdiv x.den

/-- The quantum that a flow gets at the start of its turn. -/
def grant (quantum : ℤ) (q : PacketPDWRR) : PacketPDWRR :=
  if q.turn then q else { q with deficitCounter := truncate (q.deficitCounter + q.weight * quantum), turn := true }

end PacketPDWRR

namespace PDWRR

open PacketPDWRR (first record grant)

/-- `levels` is the array as it was allocated. -/
def make (blimit : ℕ) (levels : Fin 16 → ℚ) (clock : ℚ) : PDWRR where
  blimit := blimit
  quantum := 128
  pdwrr := fun _ => PacketPDWRR.make
  links := ⟨id, id⟩
  curr := none
  bytecnt := 0
  flwcnt := 0
  levels := List.ofFn levels
  cerprique := 0
  onTime := fun _ => 0
  offTime := fun _ => 0
  predequeSite := 0
  clock := clock

def setFlow (s : PDWRR) (i : ℕ) (q : PacketPDWRR) : PDWRR := { s with pdwrr := Function.update s.pdwrr i q }

/-- The last index with the value `nextS`, or 0 when no flow has it. -/
def relocate (levels : List ℚ) (nextS : ℚ) (cerprique : ℕ) : ℕ :=
  if nextS ∈ levels then
    levels.zipIdx.foldl (fun found entry => if entry.1 = nextS then entry.2 else found) cerprique
  else 0

/-- The values of `S` in ring order from the head on, then sorted. `none` is a
read outside `levels`. -/
def rearr (s : PDWRR) : Option PDWRR := do
  let nextS ← s.levels[s.cerprique]?
  match s.curr with
  | none => return s
  | some head =>
    let unsorted := (s.links.follow s.flwcnt.toNat head).map fun i => (s.pdwrr i).S
    let levels := BubbleSort.sort s.flwcnt.toNat unsorted
    return { s with levels := levels, cerprique := relocate levels nextS s.cerprique }

/-- The sum that the first loop of `gettotalTime` makes, or `none` when it
meets a flow without a waiting time. -/
def waits (s : PDWRR) : List ℕ → ℚ → Option ℚ
  | [], totalTime => some totalTime
  | i :: flows, totalTime => if (s.pdwrr i).wt = 0 then none else s.waits flows (totalTime + (s.pdwrr i).wt)

/-- The body of the second loop of `gettotalTime`. -/
def rebalance (totalTime : ℚ) (q : PacketPDWRR) : PacketPDWRR :=
  let q := if q.Lf ≠ 0 then { q with S := q.Lf * q.weight * (q.wt / totalTime), Lf := 0 } else q
  { q with wt := 0 }

/-- `none` is a division by a `totalTime` of 0, or a read outside `levels`. -/
def gettotalTime (s : PDWRR) (curr : ℕ) : Option PDWRR :=
  match s.waits (s.links.follow s.flwcnt.toNat curr) 0 with
  | none => some s
  | some totalTime =>
    if totalTime = 0 then none
    else
      let tmp := s.links.next^[s.flwcnt.toNat] curr
      rearr ((s.links.follow s.flwcnt.toNat tmp).foldl (fun s i => s.setFlow i (rebalance totalTime (s.pdwrr i))) s)

/-- `none` is a null `curr`, a read outside `levels`, or a walk round the ring
that meets no flow of that level and never ends. -/
def moveMaxS (s : PDWRR) : Option (PDWRR × ℕ) := do
  let head ← s.curr
  let level ← s.levels[s.cerprique]?
  let tmp ← s.links.seek (fun i => (s.pdwrr i).S = level) s.flwcnt.toNat head
  let site := (s.pdwrr tmp).site
  if site ≠ s.predequeSite then
    let s := { s with offTime := Function.update s.offTime site s.clock }
    let s := s.setFlow tmp { s.pdwrr tmp with wt := s.offTime site - s.onTime site }
    let s ← s.gettotalTime head
    return (s, tmp)
  else return (s, tmp)

def getMaxflow (s : PDWRR) : Option ℕ :=
  s.curr.map fun head => s.links.argmax (fun i => (s.pdwrr i).bcount) s.flwcnt.toNat head head

/-- The flow of a source address. -/
def which (pkt : Packet) : Option ℕ :=
  if pkt.saddr ≥ 5 ∧ pkt.saddr ≤ 104 then some 1
  else if pkt.saddr ≥ 105 ∧ pkt.saddr ≤ 204 then some 2
  else if pkt.saddr ≥ 205 ∧ pkt.saddr ≤ 304 then some 3
  else none

def store (s : PDWRR) (this : ℕ) (pkt : Packet) : PDWRR :=
  let q := s.pdwrr this
  let q := { q with
    queue := q.queue.enque pkt, pkts := q.pkts + 1, pcount := q.pcount + 1, bcount := q.bcount + pkt.size }
  let q := if q.pcount = 1 then first this s.clock q else q
  { s.setFlow this q with bytecnt := s.bytecnt + pkt.size }

/-- The head packet of a flow leaves its queue. -/
def take (s : PDWRR) (this : ℕ) (pkt : Packet) : PDWRR :=
  let q := s.pdwrr this
  let q := { q with queue := q.queue.deque.2, pkts := q.pkts - 1, bcount := q.bcount - pkt.size }
  { s.setFlow this q with bytecnt := s.bytecnt - pkt.size }

/-- A flow that has become active. -/
def activate (s : PDWRR) (this : ℕ) : Option PDWRR :=
  let activated := s.links.activate this s.curr
  let q := { s.pdwrr this with site := this, deficitCounter := 0 }
  rearr { s.setFlow this q with
    links := activated.1, curr := activated.2, onTime := Function.update s.onTime this s.clock, flwcnt := s.flwcnt + 1 }

/-- The part of `enque` before the overflow loop. -/
def arrive (sqrt : Sqrt) (s : PDWRR) (this : ℕ) (pkt : Packet) : Option PDWRR := do
  let s := s.store this pkt
  let s ← if (s.pdwrr this).pkts = 1 then s.activate this else some s
  return s.setFlow this (record sqrt s.clock (s.pdwrr this))

/-- The index of the next level, when a flow is gone. -/
def skip (s : PDWRR) : ℕ := if ((s.cerprique + 1 : ℕ) : ℤ) ≥ s.flwcnt then 0 else s.cerprique + 1

/-- A flow that the overflow loop has emptied. -/
def vacate (s : PDWRR) (this head : ℕ) : Option PDWRR := do
  let q := s.pdwrr this
  let idled := s.links.idle this head
  let s := { s with
    onTime := Function.update s.onTime q.site 0, links := idled.1, curr := idled.2, flwcnt := s.flwcnt - 1 }
  let level ← s.levels[s.cerprique]?
  rearr (if q.S = level then { s with cerprique := s.skip } else s)

/-- One turn of the overflow loop of `enque`. -/
def overflow (s : PDWRR) : Option (PDWRR × Packet) := do
  let head ← s.curr
  let remq ← s.getMaxflow
  let p ← (s.pdwrr remq).queue.deque.1
  let s := s.take remq p
  let s ← if (s.pdwrr remq).pkts = 0 then s.vacate remq head else some s
  return (s, p)

/-- The overflow loop, which drops at most `n` packets. -/
def overflows : ℕ → PDWRR → Option (PDWRR × List Packet)
  | 0, s => if s.bytecnt > s.blimit then none else some (s, [])
  | n + 1, s =>
    if s.bytecnt > s.blimit then do
      let (s, p) ← s.overflow
      let (s, dropped) ← overflows n s
      return (s, p :: dropped)
    else some (s, [])

/-- The number of packets stored. -/
def packets (s : PDWRR) : ℕ := ∑ i ∈ Finset.range 4, (s.pdwrr i).queue.length

/-- The answer is the packets dropped. -/
def enque (sqrt : Sqrt) (s : PDWRR) (pkt : Packet) : Option (PDWRR × List Packet) := do
  let this ← which pkt
  let s ← s.arrive sqrt this pkt
  s.overflows s.packets

/-- A flow that its service has emptied. -/
def retire (s : PDWRR) (this : ℕ) : Option PDWRR :=
  let q := s.pdwrr this
  let s := s.setFlow this { q with turn := false, deficitCounter := 0 }
  let idled := s.links.idle this this
  let s := { s with
    onTime := Function.update s.onTime q.site 0, links := idled.1, curr := idled.2, flwcnt := s.flwcnt - 1 }
  rearr { s with cerprique := s.skip }

/-- The head packet of `this` is sent. -/
def send (s : PDWRR) (this : ℕ) (pkt : Packet) : Option PDWRR :=
  let q := s.pdwrr this
  let s := s.setFlow this { q with deficitCounter := q.deficitCounter - pkt.size }
  let s : PDWRR := { s.take this pkt with predequeSite := q.site }
  if (s.pdwrr this).pkts = 0 then s.retire this else some s

/-- The turn of `this` ends. -/
def pass (s : PDWRR) (this : ℕ) : PDWRR :=
  let q := s.pdwrr this
  { s.setFlow this { q with turn := false } with
    onTime := Function.update s.onTime q.site s.clock, cerprique := s.skip }

/-- One turn of the loop of `deque`. -/
def visit (s : PDWRR) : Option (PDWRR × Option Packet) := do
  let (s, this) ← s.moveMaxS
  let s := { s.setFlow this (grant s.quantum (s.pdwrr this)) with curr := some this }
  let pkt ← (s.pdwrr this).queue.head?
  if (s.pdwrr this).deficitCounter ≥ (pkt.size : ℤ) then
    let s ← s.send this pkt
    return (s, some pkt)
  else return (s.pass this, none)

/-- The loop of `deque`, stopped after `rounds` turns if it has not returned by then. -/
def loop : ℕ → PDWRR → Option (PDWRR × Option Packet)
  | 0, s => some (s, none)
  | n + 1, s => do
    let (s, pkt) ← s.visit
    match pkt with
    | some pkt => return (s, some pkt)
    | none => loop n s

def deque (rounds : ℕ) (s : PDWRR) : Option (PDWRR × Option Packet) :=
  if s.bytecnt = 0 then some (s, none) else loop rounds s

inductive Call
  | enque (pkt : Packet) (clock : ℚ)
  | deque (rounds : ℕ) (clock : ℚ)
deriving DecidableEq

def Call.clock : Call → ℚ
  | .enque _ clock => clock
  | .deque _ clock => clock

def Call.arrivals : Call → List Packet
  | .enque pkt _ => [pkt]
  | .deque _ _ => []

def step (sqrt : Sqrt) (s : PDWRR) : Call → Option (PDWRR × Outcome Packet)
  | .enque pkt clock => (enque sqrt { s with clock := clock } pkt).map fun next => (next.1, ⟨none, next.2⟩)
  | .deque rounds clock => (deque rounds { s with clock := clock }).map fun next => (next.1, ⟨next.2, []⟩)

def machine (sqrt : Sqrt) : Machine PDWRR Call (Outcome Packet) := ⟨step sqrt⟩

end PDWRR

namespace PacketPDWRR

/-- What holds of every flow, with packets or without. -/
structure Sane (q : PacketPDWRR) : Prop where
  wt : 0 ≤ q.wt
  deficit : 0 ≤ q.deficitCounter
  pcount : q.pkts ≤ q.pcount
  weight : 0 < q.pcount → 1 ≤ q.weight

theorem make_sane : Sane make := ⟨le_refl 0, le_refl 0, le_refl 0, fun positive => absurd positive (lt_irrefl 0)⟩

section Forecast

variable {Ex Dx Lf shape : ℚ} {q : PacketPDWRR} {levels : Levels}

/-- The forecast compares the mean with itself, so it comes out above it. -/
theorem Levels.pick_mean (spread : 0 ≤ Dx) : levels.pick Ex Dx Ex Lf = levels.above ∨ levels.pick Ex Dx Ex Lf = levels.above4 := by
  have first : ¬ Ex < Ex - 4 * Dx := by linarith
  have second : ¬ Ex < Ex - 2 * Dx := by linarith
  unfold Levels.pick
  rw [if_neg first, if_neg fun both => second both.2, if_neg fun both => lt_irrefl Ex both.2]
  by_cases positive : Ex < Ex + 2 * Dx
  · exact Or.inl (if_pos ⟨le_refl Ex, positive⟩)
  · have none : Dx = 0 := by linarith
    subst none
    simp

theorem forecastLf_mean (spread : 0 ≤ Dx) (known : shape = 6 / 5 ∨ shape = 7 / 5 ∨ shape = 8 / 5) :
    3 ≤ forecastLf shape Ex Dx Ex Lf := by
  have least : ∀ levels : Levels, 3 ≤ levels.above → 3 ≤ levels.above4 → 3 ≤ levels.pick Ex Dx Ex Lf := by
    intro levels low high
    rcases levels.pick_mean spread with same | same
    · rw [same]
      exact low
    · rw [same]
      exact high
  rcases known with rfl | rfl | rfl
  · rw [forecastLf, if_pos rfl]
    exact least _ (by norm_num) (by norm_num)
  · rw [forecastLf, if_neg (by norm_num), if_pos rfl]
    exact least _ (by norm_num) (by norm_num)
  · rw [forecastLf, if_neg (by norm_num), if_neg (by norm_num), if_pos rfl]
    exact least _ (by norm_num) (by norm_num)

/-- A forecast raises the weight, or leaves it. -/
theorem forecastL_eq (sqrt : Sqrt) (known : q.site = 1 ∨ q.site = 2 ∨ q.site = 3) : ∃ weight shape Lf,
    q.forecastL sqrt = { q with weight := weight, shape := shape, Lf := Lf } ∧ q.weight ≤ weight := by
  let shape : ℚ := if q.site = 1 then 6 / 5 else if q.site = 2 then 7 / 5 else if q.site = 3 then 8 / 5 else q.shape
  have one : shape = 6 / 5 ∨ shape = 7 / 5 ∨ shape = 8 / 5 := by
    rcases known with first | second | third
    · exact Or.inl (if_pos first)
    · exact Or.inr (Or.inl (by simp [shape, second]))
    · exact Or.inr (Or.inr (by simp [shape, third]))
  refine ⟨_, _, _, rfl, ?_⟩
  have more : ∀ Lf : ℚ, 3 ≤ Lf → 0 ≤ if Lf < 3 then (Lf - 3) / 2 else if Lf ≥ 3 ∧ Lf ≤ 4 then 0 else (Lf - 4) / 2 := by
    intro Lf high
    split_ifs with low middle
    · exact absurd low (not_lt.mpr high)
    · exact le_refl 0
    · have above := lt_of_not_ge fun below => middle ⟨high, below⟩
      linarith
  exact le_add_of_nonneg_right (more _ (forecastLf_mean (sqrt.property _) one))

end Forecast

section Updates

variable {k : ℕ} {q : PacketPDWRR}

theorem first_eq (k : ℕ) (curtime : ℚ) (q : PacketPDWRR) : ∃ weight shape S t0 pktOne,
    first k curtime q = { q with weight := weight, shape := shape, S := S, t0 := t0, pktOne := pktOne } ∧
      (k = 1 ∨ k = 2 ∨ k = 3 → 1 ≤ weight) := by
  unfold first
  split_ifs with one two three
  · exact ⟨3, _, _, _, _, rfl, fun _ => by norm_num⟩
  · exact ⟨2, _, _, _, _, rfl, fun _ => by norm_num⟩
  · exact ⟨1, _, _, _, _, rfl, fun _ => le_refl 1⟩
  · exact ⟨_, _, _, _, _, rfl, fun known => by omega⟩

theorem record_eq (sqrt : Sqrt) (curtime : ℚ) (known : q.site = 1 ∨ q.site = 2 ∨ q.site = 3) :
    ∃ weight shape Lf t0 pktOne tflag, record sqrt curtime q =
      { q with weight := weight, shape := shape, Lf := Lf, t0 := t0, pktOne := pktOne, tflag := tflag } ∧ q.weight ≤ weight := by
  by_cases due : curtime ≥ q.t0 + 1
  · let noted : PacketPDWRR := { q with pktOne := Function.update q.pktOne q.tflag (if q.pcount = 0 then 0 else q.pcount - 1) }
    have written : record sqrt curtime q = { (if noted.tflag = timeSection then { noted.forecastL sqrt with tflag := 0 }
        else { noted with tflag := noted.tflag + 1 } : PacketPDWRR) with t0 := curtime } := if_pos due
    rw [written]
    split_ifs
    · obtain ⟨weight, shape, Lf, forecast, more⟩ := forecastL_eq (q := noted) sqrt known
      exact ⟨weight, shape, Lf, curtime, noted.pktOne, 0, by rw [forecast], more⟩
    · exact ⟨_, _, _, _, _, _, rfl, le_refl _⟩
  · exact ⟨_, _, _, _, _, _, if_neg due, le_refl _⟩

theorem Sane.raise (sane : Sane q) {weight shape Lf t0 : ℚ} {pktOne : ℕ → ℤ} {tflag : ℕ} (more : q.weight ≤ weight) :
    Sane { q with weight := weight, shape := shape, Lf := Lf, t0 := t0, pktOne := pktOne, tflag := tflag } :=
  ⟨sane.wt, sane.deficit, sane.pcount, fun positive => (sane.weight positive).trans more⟩

theorem truncate_of_nonneg {x : ℚ} (nonneg : 0 ≤ x) : truncate x = ⌊x⌋ := by
  unfold truncate
  rw [Rat.floor_def', Int.tdiv_eq_ediv_of_nonneg (Rat.num_nonneg.mpr nonneg)]

/-- The grant of a turn is at least a byte. -/
theorem grant_eq {quantum : ℤ} (positive : 1 ≤ quantum) (sane : Sane q) (stored : 0 < q.pkts) : ∃ deficit,
    grant quantum q = { q with deficitCounter := deficit, turn := true } ∧ q.deficitCounter ≤ deficit ∧
      (q.turn = false → q.deficitCounter + 1 ≤ deficit) := by
  unfold grant
  split_ifs with turn
  · exact ⟨q.deficitCounter, by rw [← turn], le_refl _, fun off => absurd (turn.symm.trans off) nofun⟩
  · have weight : 1 ≤ q.weight := sane.weight (stored.trans_le sane.pcount)
    have share : (1 : ℚ) ≤ q.weight * quantum := one_le_mul_of_one_le_of_one_le weight (by exact_mod_cast positive)
    have deficit : (0 : ℚ) ≤ q.deficitCounter := by exact_mod_cast sane.deficit
    have more : q.deficitCounter + 1 ≤ truncate (q.deficitCounter + q.weight * quantum) := by
      rw [truncate_of_nonneg (by linarith), Int.le_floor]
      push_cast
      linarith
    exact ⟨_, rfl, by omega, fun _ => more⟩

theorem rebalance_sane (sane : Sane q) (totalTime : ℚ) : Sane (PDWRR.rebalance totalTime q) := by
  unfold PDWRR.rebalance
  split_ifs
  · exact ⟨le_refl 0, sane.deficit, sane.pcount, sane.weight⟩
  · exact ⟨le_refl 0, sane.deficit, sane.pcount, sane.weight⟩

end Updates

end PacketPDWRR

end Ns2
