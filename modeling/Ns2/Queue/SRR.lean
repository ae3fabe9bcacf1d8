import Ns2.Library.Machine
import Ns2.Library.WeightSpread

namespace Ns2

namespace WSS

def maxOrder : ℕ := 16

/-- `n` is the number of powers of 2 that are left, those from `N - n` on. -/
def rawScan (i N : ℕ) : ℕ → ℕ
  | 0 => N
  | n + 1 => if i % 2 ^ (N - (n + 1)) ≠ 0 then N - (n + 1) else rawScan i N n

/-- The entry of `pwss` at `ptr`, as `init` computes it. -/
def value (ptr : ℕ) : ℕ := rawScan (ptr + 1) maxOrder (maxOrder - 1)

/-- `none` is a pointer outside the sequence of this order. -/
def get (ptr order : ℕ) : Option ℕ := if (ptr : ℤ) > 2 ^ order - 2 then none else some (value ptr)

def incPtr (ptr order : ℕ) : ℕ := if ((ptr + 1 : ℕ) : ℤ) > 2 ^ order - 2 then 0 else ptr + 1

end WSS

/-- The entry of a queue in the column of this weight. -/
structure WmNode where
  queueid : ℕ
  weight : ℕ
deriving DecidableEq

/-- The weight matrix of an `SRR`. `wmHead i` are the queues in column `i` and
`pRowHead q` the columns of queue `q`, each in the order of its list. `ptr` is that of `wss`. -/
structure WM where
  wmHead : ℕ → List ℕ
  pRowHead : ℕ → List ℕ
  pwmCurr : Option WmNode
  ptr : ℕ
  wmEmptyFlag : Bool
  maxColumn : ℕ
  currMaxColumn : ℤ
  flwcnt : ℤ
  lastQueueid : ℤ

namespace WM

def make : WM where
  wmHead := fun _ => []
  pRowHead := fun _ => []
  pwmCurr := none
  ptr := 0
  wmEmptyFlag := true
  maxColumn := 0
  currMaxColumn := -1
  flwcnt := 0
  lastQueueid := -1

def order (s : WM) : ℕ := (s.currMaxColumn + 1).toNat

/-- `x` comes in just before `y`. -/
def insertBefore (x y : ℕ) : List ℕ → List ℕ
  | [] => [x]
  | z :: l => if z = y then x :: z :: l else z :: insertBefore x y l

/-- What follows `y`. -/
def after (y : ℕ) : List ℕ → List ℕ
  | [] => []
  | z :: l => if z = y then l else after y l

/-- A node of `queueid` in column `i`. -/
def addNode (s : WM) (queueid i : ℕ) : WM :=
  let column := match s.pwmCurr with
    | some curr => if curr.weight = i then insertBefore queueid curr.queueid (s.wmHead i) else s.wmHead i ++ [queueid]
    | none => s.wmHead i ++ [queueid]
  let s : WM := { s with
    pRowHead := Function.update s.pRowHead queueid (s.pRowHead queueid ++ [i]), wmHead := Function.update s.wmHead i column,
    currMaxColumn := if s.currMaxColumn < i then i else s.currMaxColumn }
  if s.wmEmptyFlag = true then
    { s with wmEmptyFlag := false, pwmCurr := if s.pwmCurr = none then some ⟨queueid, i⟩ else s.pwmCurr }
  else s

/-- The nodes for the bits of `weight` below `n`, from the highest on. -/
def addNodes (queueid weight : ℕ) : ℕ → WM → WM
  | 0, s => s
  | n + 1, s => addNodes queueid weight n (if weight.testBit n then s.addNode queueid n else s)

/-- `none` is a weight that is 0 or too big. -/
def addToWM (s : WM) (queueid weight : ℕ) : Option WM :=
  let oldColno := s.currMaxColumn
  if weight = 0 then none
  else if weight > 2 ^ (s.maxColumn + 1) - 1 then none
  else
    let s := addNodes queueid weight (s.maxColumn + 1) s
    let s := if oldColno < s.currMaxColumn ∧ oldColno ≥ 0 then
        { s with ptr := (s.ptr + 1) * 2 ^ (s.currMaxColumn - oldColno).toNat - 1 }
      else s
    some { s with flwcnt := s.flwcnt + 1 }

/-- The first node of the next column that the terms from `ptr` on lead to,
looked for in at most `n` terms. `none` is a pointer or a column out of range. -/
def seek : ℕ → WM → Option WM
  | 0, _ => none
  | n + 1, s => do
    let wssTerm ← WSS.get s.ptr s.order
    let s : WM := { s with ptr := WSS.incPtr s.ptr s.order }
    if wssTerm > s.order then none
    else
      let temp := s.order - wssTerm
      match s.wmHead temp with
      | first :: _ => some { s with pwmCurr := some ⟨first, temp⟩ }
      | [] => seek n s

/-- The highest column below `n` that is not empty. -/
def highest (s : WM) : ℕ → Option ℕ
  | 0 => none
  | n + 1 => if s.wmHead n ≠ [] then some n else s.highest n

/-- The pointer when the highest column has become `i`. -/
def shrink (ptr i mul : ℕ) : ℕ :=
  let pc := ptr + 1
  let tmpc := pc / mul
  let tmpc := if pc % mul ≠ 0 then (if tmpc + 1 > 2 ^ (i + 1) - 1 then 1 else tmpc + 1) else tmpc
  tmpc - 1

/-- `none` is a null `pwmCurr`, or an abort of the search for the next node. -/
def delFromWM (s : WM) (queueid : ℕ) : Option WM := do
  let curr ← s.pwmCurr
  let pwmCurr := if curr.queueid = queueid then
      (after curr.queueid (s.wmHead curr.weight)).head?.map fun next => (⟨next, curr.weight⟩ : WmNode)
    else some curr
  let wmHead := (s.pRowHead queueid).foldl (fun wmHead i => Function.update wmHead i ((wmHead i).erase queueid)) s.wmHead
  let s : WM := { s with
    pwmCurr := pwmCurr, wmHead := wmHead, pRowHead := Function.update s.pRowHead queueid [], flwcnt := s.flwcnt - 1 }
  match s.highest s.order with
  | none => return { s with wmEmptyFlag := true, currMaxColumn := -1, pwmCurr := none, lastQueueid := -1, ptr := 0 }
  | some i =>
    let ptr := if (i : ℤ) < s.currMaxColumn then shrink s.ptr i (2 ^ (s.currMaxColumn - i).toNat) else s.ptr
    let s : WM := { s with currMaxColumn := i, ptr := ptr }
    if s.pwmCurr = none then seek (2 ^ s.order) s else return s

/-- The outer `none` is a null `pwmCurr`, an empty matrix, or an abort of the
search. The inner one is the answer when there are no bytes. -/
def getNextNode (s : WM) (bytecnt : ℤ) : Option (WM × Option WmNode) :=
  if bytecnt = 0 then some (s, none)
  else do
    let curr ← s.pwmCurr
    match after curr.queueid (s.wmHead curr.weight) with
    | next :: _ => return ({ s with pwmCurr := some ⟨next, curr.weight⟩ }, some ⟨next, curr.weight⟩)
    | [] =>
      if s.currMaxColumn = -1 then none
      else
        let s ← seek (2 ^ s.order) s
        return (s, s.pwmCurr)

/-- The `while` loop of `getOrder`, for at most `n` rounds. -/
def orderLoop (i : ℕ) : ℕ → ℕ → ℕ
  | 0, order => order
  | n + 1, order => if 2 ^ order ≤ i then orderLoop i n (order + 1) else order

def getOrder (i : ℕ) : ℤ := (orderLoop i (i + 1) 0 : ℤ) - 1

/-- What `setrate` does to the matrix for a rate of `success` granules. `none`
is an order that is too big. -/
def setrate (s : WM) (success : ℕ) : Option WM :=
  let temp := getOrder success
  let s := if (s.maxColumn : ℤ) < temp then { s with maxColumn := temp.toNat } else s
  if s.maxColumn > WSS.maxOrder - 1 then none else some s

inductive Call
  | setrate (success : ℕ)
  | add (queueid weight : ℕ)
  | del (queueid : ℕ)
  | next (bytecnt : ℤ)
deriving DecidableEq

/-- The answer of `getNextNode` is the queue of the node. -/
def step (s : WM) : Call → Option (WM × Option ℕ)
  | .setrate success => (s.setrate success).map fun s => (s, none)
  | .add queueid weight => (s.addToWM queueid weight).map fun s => (s, none)
  | .del queueid => (s.delFromWM queueid).map fun s => (s, none)
  | .next bytecnt => (s.getNextNode bytecnt).map fun next => (next.1, next.2.map WmNode.queueid)

def machine : Machine WM Call (Option ℕ) := ⟨step⟩

end WM

end Ns2
