import Ns2.Library.NextChain
import Mathlib.Algebra.Order.Ring.Rat
import Mathlib.Data.Int.Notation
import Mathlib.Tactic.Common

universe u

namespace Ns2

/-- The fields of a class that the functions here read or write. `q` tells whether there is a queue,
`pkts` is what its monitor counts. Times and rates are rational numbers. -/
structure CBQClass (ι : Type u) where
  peer : Option ι
  lender : Option ι
  q : Bool
  pkts : ℕ
  allotment : ℚ
  maxrate : ℚ
  undertime : ℚ
  pri : ℤ
  level : ℤ
  permitBorrowing : Bool

namespace CBQClass

def demand {ι : Type u} (cl : CBQClass ι) : Bool := cl.pkts > 0

end CBQClass

def MAXPRIO : ℤ := 10
def MAXLEVEL : ℤ := 32
def LEAF_LEVEL : ℤ := 1

inductive EligibleType
  | none
  | formal
  | ancestors
  | toplevel
deriving DecidableEq

/-- The queue and its classes by their addresses. `active` holds an address per priority, `levels` the list per level along
`level_peer_`, `link` the bandwidth of the link if there is one. -/
structure CBQueue (ι : Type u) where
  cls : ι → CBQClass ι
  active : ℤ → Option ι
  levels : ℤ → List ι
  maxprio : ℤ
  maxpkt : ℤ
  maxlevel : ℤ
  toplevelLimit : ℤ
  eligible : EligibleType
  link : Option ℚ

namespace CBQueue

variable {ι : Type u}

def toplevel (s : CBQueue ι) : Bool := s.eligible = .toplevel

end CBQueue

end Ns2
