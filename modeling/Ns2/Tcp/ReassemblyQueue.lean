import Mathlib.Data.Int.ConditionallyCompleteOrder
import Mathlib.Data.List.DropRight
import Ns2.Library.Intervals
import Ns2.Library.Machine

namespace Ns2

abbrev TcpFlag := BitVec 32

/-- `ReassemblyQueue::seginfo`; `id` is the address of the node. -/
structure SegInfo where
  id : ℕ
  startseq : ℤ
  endseq : ℤ
  pflags : TcpFlag
  rqflags : BitVec 32
  cnt : ℤ
deriving DecidableEq

/-- `ReassemblyQueue`: the FIFO list from `head_` to `tail_`, the LIFO list of the
same nodes from `top_` to `bottom_`, and the variable that `rcv_nxt_` refers to. -/
structure ReassemblyQueue where
  fifo : List SegInfo
  lifo : List ℕ
  total : ℤ
  rcvNxt : ℤ
  fresh : ℕ
deriving DecidableEq

namespace ReassemblyQueue

def make (rcvnxt : ℤ) : ReassemblyQueue := ⟨[], [], 0, rcvnxt, 0⟩

def clear (s : ReassemblyQueue) : ReassemblyQueue := { s with fifo := [], lifo := [], total := 0 }

/-- The loop of `clearto` over the rest of the FIFO list, and the trim after it. -/
def cleartoFrom (seq : ℤ) : List SegInfo → ReassemblyQueue → TcpFlag → ReassemblyQueue × TcpFlag
  | [], s, flag => ({ s with fifo := [] }, flag)
  | p :: rest, s, flag =>
    if p.endseq ≤ seq then
      cleartoFrom seq rest
        { s with lifo := s.lifo.erase p.id, total := s.total - (p.endseq - p.startseq) } (flag ||| p.pflags)
    else if p.startseq ≤ seq ∧ p.endseq > seq then
      ({ s with fifo := { p with startseq := seq } :: rest, total := s.total - (seq - p.startseq) },
        flag ||| p.pflags)
    else ({ s with fifo := p :: rest }, flag)

def clearto (s : ReassemblyQueue) (seq : ℤ) : ReassemblyQueue × TcpFlag := cleartoFrom seq s.fifo s 0

def cleartonxt (s : ReassemblyQueue) : ReassemblyQueue × TcpFlag := s.clearto s.rcvNxt

/-- The number of the nodes, and of the bytes in them. -/
def cnts (nodes : List SegInfo) : ℤ × ℤ :=
  nodes.foldl (fun acc p => (acc.1 + 1, acc.2 + (p.endseq - p.startseq))) (0, 0)

/-- The loop of `nexthole` over the rest of the FIFO list: the hole, and `nxtcnt` and `nxtbytes`. -/
def nextholeFrom (seq : ℤ) : List SegInfo → ℤ × ℤ × ℤ
  | [] => (-1, -1, -1)
  | p :: rest =>
    if p.startseq > seq then (seq, cnts (p :: rest))
    else if p.startseq ≤ seq ∧ p.endseq ≥ seq then (p.endseq, if rest = [] then (-1, -1) else cnts rest)
    else nextholeFrom seq rest

def nexthole (s : ReassemblyQueue) (seq : ℤ) : ℤ × ℤ × ℤ := nextholeFrom seq s.fifo

/-- `if (rcv_nxt_ >= start) rcv_nxt_ = end`. -/
def advance (s : ReassemblyQueue) (start fin : ℤ) : ReassemblyQueue :=
  { s with rcvNxt := if s.rcvNxt ≥ start then fin else s.rcvNxt }

/-- The new block fills the hole between `p` and `q`. -/
def fillHole (s : ReassemblyQueue) (before : List SegInfo) (p n q : SegInfo) (after : List SegInfo) :
    ReassemblyQueue × TcpFlag :=
  let p := { p with endseq := q.endseq, cnt := p.cnt + (n.cnt + q.cnt), pflags := p.pflags ||| n.pflags }
  let s := { s with fifo := before ++ p :: after, lifo := (s.lifo.erase n.id).erase q.id }
  (s.advance p.startseq p.endseq, p.pflags)

/-- The new block joins `p`, but not `q`. -/
def joinPrev (s : ReassemblyQueue) (before : List SegInfo) (p n : SegInfo) (after : List SegInfo) :
    ReassemblyQueue × TcpFlag :=
  let p := { p with endseq := n.endseq, pflags := p.pflags ||| n.pflags, cnt := p.cnt + n.cnt }
  let s := { s with fifo := before ++ p :: after, lifo := s.lifo.erase n.id }
  (s.advance p.startseq p.endseq, p.pflags)

/-- The new block joins `q`, but not `p`. -/
def joinNext (s : ReassemblyQueue) (before : List SegInfo) (n q : SegInfo) (after : List SegInfo) :
    ReassemblyQueue × TcpFlag :=
  let q := { q with startseq := n.startseq, pflags := q.pflags ||| n.pflags, cnt := q.cnt + n.cnt }
  let s := { s with fifo := before ++ q :: after, lifo := s.lifo.erase n.id }
  (s.advance q.startseq q.endseq, q.pflags)

/-- `coalesce(p, n, q)` for the new node `n` between the two parts of the FIFO list. It reads
through `p` at its end: `none` when that is NULL. -/
def coalesce (s : ReassemblyQueue) (before : List SegInfo) (n : SegInfo) (after : List SegInfo) :
    Option (ReassemblyQueue × TcpFlag) :=
  match before.getLast?, after with
  | some p, q :: rest =>
    if p.endseq = n.startseq ∧ n.endseq = q.startseq then some (s.fillHole before.dropLast p n q rest)
    else if p.endseq = n.startseq then some (s.joinPrev before.dropLast p n after)
    else if n.endseq = q.startseq then some (s.joinNext before n q rest)
    else some (s.advance p.startseq p.endseq, 0)
  | some p, [] =>
    if p.endseq = n.startseq then some (s.joinPrev before.dropLast p n [])
    else some (s.advance p.startseq p.endseq, 0)
  | none, q :: rest => if n.endseq = q.startseq then some (s.joinNext before n q rest) else none
  | none, [] => none

/-- The code from `endfast` on: a new node after the first `i` nodes of the FIFO
list and before those from place `j` on. -/
def endfast (s : ReassemblyQueue) (i j : ℕ) (start fin : ℤ) (tiflags : TcpFlag) (rqflags : BitVec 32) (initcnt : ℤ)
    (needmerge : Bool) : Option (ReassemblyQueue × TcpFlag) :=
  let n : SegInfo := ⟨s.fresh, start, fin, tiflags, rqflags, initcnt⟩
  let before := s.fifo.take i
  let after := s.fifo.drop j
  let s := { s with
    fifo := before ++ n :: after
    lifo := n.id :: s.lifo
    total := s.total + (fin - start)
    fresh := s.fresh + 1 }
  if needmerge then s.coalesce before n after else some (s.advance start fin, tiflags)

structure Sweep where
  kept : List SegInfo
  lifo : List ℕ
  total : ℤ
  tiflags : TcpFlag
  initcnt : ℤ
  altered : Bool

/-- The pass that kills the nodes that the new segment overlaps completely. It
stops with the flags of a node that the segment overlaps exactly. -/
def sweep (start fin : ℤ) : List SegInfo → Sweep → Sweep × Option TcpFlag
  | [], w => (w, none)
  | r :: rest, w =>
    if start = r.startseq ∧ fin = r.endseq then
      let r := { r with pflags := r.pflags ||| w.tiflags }
      ({ w with kept := w.kept ++ r :: rest }, some r.pflags)
    else if start ≤ r.startseq ∧ fin ≥ r.endseq then
      sweep start fin rest { w with
        lifo := w.lifo.erase r.id
        total := w.total - (r.endseq - r.startseq)
        tiflags := w.tiflags ||| r.pflags
        initcnt := w.initcnt + r.cnt
        altered := true }
    else sweep start fin rest { w with kept := w.kept ++ [r] }

theorem sweep_kept (start fin : ℤ) (nodes : List SegInfo) (w : Sweep) :
    w.kept.length ≤ (sweep start fin nodes w).1.kept.length ∧
      (sweep start fin nodes w).1.kept.length ≤ w.kept.length + nodes.length ∧
      ((sweep start fin nodes w).1.altered = true → w.altered = false →
        (sweep start fin nodes w).1.kept.length < w.kept.length + nodes.length) := by
  fun_induction sweep start fin nodes w with
  | case1 => simp_all
  | case2 => simp_all
  | case3 r rest w other inside ih =>
    simp only [List.length_cons] at ih ⊢
    exact ⟨ih.1, by omega, fun _ _ => by omega⟩
  | case4 r rest w other outside ih =>
    simp only [List.length_cons, List.length_append, List.length_nil] at ih ⊢
    exact ⟨by omega, by omega, fun altered fresh => by have shorter := ih.2.2 altered fresh; omega⟩

/-- The left-side merge: the node at place `i` takes the new segment's start. -/
def mergeLeft (s : ReassemblyQueue) (i : ℕ) (p : SegInfo) (start : ℤ) (tiflags : TcpFlag) : ReassemblyQueue :=
  { s with
    fifo := s.fifo.set i { p with
      startseq := if start < p.startseq then start else p.startseq
      pflags := p.pflags ||| tiflags
      cnt := p.cnt + 1 }
    total := if start < p.startseq then s.total + (p.startseq - start) else s.total }

/-- The right-side merge: the node at place `j` takes the new segment's end. -/
def mergeRight (s : ReassemblyQueue) (j : ℕ) (q : SegInfo) (fin : ℤ) (tiflags : TcpFlag) : ReassemblyQueue :=
  { s with
    fifo := s.fifo.set j { q with
      endseq := if fin > q.endseq then fin else q.endseq
      pflags := q.pflags ||| tiflags }
    total := if fin > q.endseq then s.total + (fin - q.endseq) else s.total }

/-- The new segment fits between two neighbours, one of which it adjoins. -/
def fits (s : ReassemblyQueue) (i j : ℕ) (start fin : ℤ) : Bool :=
  match s.fifo[i - 1]?, s.fifo[j]? with
  | some p, some q => i = j && p.endseq ≤ start && q.startseq ≥ fin && (p.endseq = start || q.startseq = fin)
  | _, _ => false

/-- `add` once nothing is left that the segment overlaps completely: `p` is the
last of the first `i` nodes and `q` the node at place `j`. -/
def mergeSides (s : ReassemblyQueue) (i j : ℕ) (start fin : ℤ) (tiflags : TcpFlag) (rqflags : BitVec 32)
    (initcnt : ℤ) : Option (ReassemblyQueue × TcpFlag) := do
  let p ← s.fifo[i]?
  let left : Bool := i = 0 || p.startseq < start
  let s := if left then s.mergeLeft i p start tiflags else s
  let i := if left then i + 1 else i
  let start := if left then p.endseq else start
  let initcnt := if left then initcnt - 1 else initcnt
  let q ← if j = 0 then none else s.fifo[j - 1]?
  let right : Bool := j = s.fifo.length || q.endseq > fin
  -- `needmerge` is set before it is tested here, so that `cnt_` never counts a right-side merge.
  let s := if right then s.mergeRight (j - 1) q fin tiflags else s
  let j := if right then j - 1 else j
  let fin := if right then q.startseq else fin
  if fin ≤ start then do
    let head ← s.fifo.head?
    return (s.advance head.startseq head.endseq, tiflags)
  else s.endfast i j start fin tiflags rqflags initcnt (left || right || s.fits i j start fin)

/-- The code of `add` from `again2` on. -/
def again2 (s : ReassemblyQueue) (start fin : ℤ) (tiflags : TcpFlag) (rqflags : BitVec 32) (initcnt : ℤ) :
    Option (ReassemblyQueue × TcpFlag) :=
  match s.fifo.head?, s.fifo.getLast? with
  | some head, some tail =>
    if start ≥ tail.endseq then
      s.endfast s.fifo.length s.fifo.length start fin tiflags rqflags initcnt (start = tail.endseq)
    else if fin ≤ head.startseq then s.endfast 0 0 start fin tiflags rqflags initcnt (fin = head.startseq)
    else
      let j := (s.fifo.takeWhile (·.startseq < fin)).length
      let i := (s.fifo.rdropWhile (·.endseq > start)).length
      match swept : sweep start fin ((s.fifo.take j).drop (i - 1))
          ⟨s.fifo.take (i - 1), s.lifo, s.total, tiflags, initcnt, false⟩ with
      | (w, some flags) =>
        some ({ s with fifo := w.kept ++ s.fifo.drop j, lifo := w.lifo, total := w.total }, flags)
      | (w, none) =>
        let next := { s with fifo := w.kept ++ s.fifo.drop j, lifo := w.lifo, total := w.total }
        if next.fifo = [] then next.endfast 0 0 start fin w.tiflags rqflags w.initcnt false
        else if w.altered then next.again2 start fin w.tiflags rqflags w.initcnt
        else next.mergeSides i j start fin w.tiflags rqflags w.initcnt
  | _, _ => none
termination_by s.fifo.length
decreasing_by
  have kept := sweep_kept start fin ((s.fifo.take j).drop (i - 1))
    ⟨s.fifo.take (i - 1), s.lifo, s.total, tiflags, initcnt, false⟩
  rw [swept] at kept
  have shorter := kept.2.2 (by assumption) rfl
  simp only [List.length_append, List.length_drop, List.length_take] at kept shorter ⊢
  omega

def add (s : ReassemblyQueue) (start fin : ℤ) (tiflags : TcpFlag) (rqflags : BitVec 32) :
    Option (ReassemblyQueue × TcpFlag) :=
  if fin < start then none
  else if s.fifo = [] then
    if s.lifo ≠ [] then none
    else
      let n : SegInfo := ⟨s.fresh, start, fin, tiflags, rqflags, 1⟩
      let s := { s with fifo := [n], lifo := [n.id], total := fin - start, fresh := s.fresh + 1 }
      some (s.advance start fin, tiflags)
  else s.again2 start fin tiflags rqflags 1

end ReassemblyQueue

end Ns2
