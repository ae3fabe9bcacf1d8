import Mathlib.Data.Int.Notation

namespace Ns2

/-- `[sa_left, sa_right)` of the TCP header, and an `Sf_Entry`. -/
structure SackBlock where
  left : ℤ
  right : ℤ
deriving DecidableEq

def SackBlock.Covers (b : SackBlock) (seq : ℤ) : Prop := b.left ≤ seq ∧ seq < b.right

instance SackBlock.Covers.decidable (b : SackBlock) (seq : ℤ) : Decidable (b.Covers seq) :=
  inferInstanceAs (Decidable (_ ∧ _))

end Ns2
