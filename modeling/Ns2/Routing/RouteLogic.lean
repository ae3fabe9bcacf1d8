import Mathlib.Algebra.Order.Ring.Rat
import Mathlib.Logic.Function.Basic

namespace Ns2

structure AdjEntry where
  cost : ℚ
  entry : ℕ

structure RouteEntry where
  nextHop : ℕ
  entry : ℕ

/-- `adj` and `route` are the flat arrays of `size` times `size` entries. -/
structure RouteLogic where
  size : ℕ
  adj : ℕ → AdjEntry
  route : ℕ → RouteEntry

namespace RouteLogic

def infinity : ℚ := 0x3fff

def index (i j N : ℕ) : ℕ := N * i + j

def make : RouteLogic where
  size := 0
  adj := fun _ => ⟨0, 0⟩
  route := fun _ => ⟨0, 0⟩

def alloc (s : RouteLogic) (n : ℕ) : RouteLogic := { s with size := n, adj := fun _ => ⟨infinity, 0⟩ }

/-- The doubling of `m` in `check`, for at most the rounds of the first argument. -/
def double (n : ℕ) : ℕ → ℕ → ℕ
  | 0, m => m
  | rounds + 1, m => if m ≤ n then double n rounds (m * 2) else m

def copyCell (old : ℕ → AdjEntry) (osize m i : ℕ) (adj : ℕ → AdjEntry) (j : ℕ) : ℕ → AdjEntry :=
  Function.update adj (index i j m) { adj (index i j m) with cost := (old (index i j osize)).cost }

def copyRow (old : ℕ → AdjEntry) (osize m : ℕ) (adj : ℕ → AdjEntry) (i : ℕ) : ℕ → AdjEntry :=
  (List.range osize).foldl (copyCell old osize m i) adj

/-- The costs of the old array in the new one of width `m`. The entries are not copied. -/
def copy (old : ℕ → AdjEntry) (osize m : ℕ) (adj : ℕ → AdjEntry) : ℕ → AdjEntry :=
  (List.range osize).foldl (copyRow old osize m) adj

def check (s : RouteLogic) (n : ℕ) : RouteLogic :=
  if n < s.size then s
  else
    let m := double n (n + 1) (if s.size = 0 then 16 else s.size)
    let t := s.alloc m
    { t with adj := copy s.adj s.size m t.adj, size := m }

def insert (s : RouteLogic) (src dst : ℕ) (cost : ℚ) : RouteLogic :=
  let s := (s.check src).check dst
  { s with adj := Function.update s.adj (index src dst s.size) { s.adj (index src dst s.size) with cost := cost } }

def insertEntry (s : RouteLogic) (src dst : ℕ) (cost : ℚ) (entry : ℕ) : RouteLogic :=
  let s := (s.check src).check dst
  { s with adj := Function.update s.adj (index src dst s.size) ⟨cost, entry⟩ }

/-- The arrays of `compute_routes`. -/
structure Work where
  parent : ℕ → ℕ
  hopcnt : ℕ → ℚ
  route : ℕ → RouteEntry

section Compute

variable (s : RouteLogic)

def ADJ (i j : ℕ) : ℚ := (s.adj (index i j s.size)).cost

def ROUTE (i j : ℕ) : ℕ := (s.route (index i j s.size)).nextHop

/-- The indices from 1 on. -/
def nodes : List ℕ := List.range' 1 (s.size - 1)

def neighbour (k : ℕ) (w : Work) (v : ℕ) : Work :=
  if w.parent v ≠ k then
    let w := { w with hopcnt := Function.update w.hopcnt v (s.ADJ k v) }
    if w.hopcnt v ≠ infinity then
      { w with route := Function.update w.route (index k v s.size) ⟨v, (s.adj (index k v s.size)).entry⟩ }
    else w
  else w

def nearest (k : ℕ) (w : Work) : ℕ :=
  s.nodes.foldl (fun o v => if w.parent v ≠ k ∧ w.hopcnt v < w.hopcnt o then v else o) 0

def relax (k o : ℕ) (w : Work) (v : ℕ) : Work :=
  if w.parent v ≠ k ∧ w.hopcnt o + s.ADJ o v < w.hopcnt v then
    { w with
      route := Function.update w.route (index k v s.size) (w.route (index k o s.size)),
      hopcnt := Function.update w.hopcnt v (w.hopcnt o + s.ADJ o v) }
  else w

/-- One turn of the main loop for the source `k`. -/
def visit (k : ℕ) (w : Work) : Work :=
  let w := { w with hopcnt := Function.update w.hopcnt 0 infinity }
  let o := s.nearest k w
  let w := { w with parent := Function.update w.parent o k }
  if o = 0 then w else s.nodes.foldl (s.relax k o) w

def source (w : Work) (k : ℕ) : Work :=
  let w := { w with parent := id }
  let w := s.nodes.foldl (s.neighbour k) w
  s.nodes.foldl (fun w _ => s.visit k w) w

/-- The route to yourself is yourself. -/
def self (route : ℕ → RouteEntry) (k : ℕ) : ℕ → RouteEntry := Function.update route (index k k s.size) ⟨k, 0⟩

/-- `hopcnt` is the array as it was allocated. -/
def computeRoutes (hopcnt : ℕ → ℚ) : RouteLogic :=
  let w := s.nodes.foldl s.source ⟨id, hopcnt, fun _ => ⟨0, 0⟩⟩
  { s with route := s.nodes.foldl s.self w.route }

end Compute

inductive Call
  | insert (src dst : ℕ) (cost : ℚ)
  | insertEntry (src dst : ℕ) (cost : ℚ) (entry : ℕ)
deriving DecidableEq

def step (s : RouteLogic) : Call → RouteLogic
  | .insert src dst cost => s.insert src dst cost
  | .insertEntry src dst cost entry => s.insertEntry src dst cost entry

def build (calls : List Call) : RouteLogic := calls.foldl step make

end RouteLogic

end Ns2
