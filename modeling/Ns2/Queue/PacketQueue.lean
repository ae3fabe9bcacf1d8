import Ns2.Library.Ledger
import Mathlib.Algebra.BigOperators.Group.Finset.Piecewise
import Mathlib.Algebra.Order.BigOperators.Group.Finset
import Mathlib.Algebra.Order.Ring.Int

namespace Ns2

/-- One entry changes, and the total with it. -/
theorem sum_update {β : Type*} {k n : ℕ} (inside : k < n) (f : β → ℤ) (g : ℕ → β) (v : β) :
    ∑ i ∈ Finset.range n, f (Function.update g k v i) = ∑ i ∈ Finset.range n, f (g i) - f (g k) + f v := by
  have member := Finset.mem_range.mpr inside
  simp only [Function.apply_update fun _ => f]
  rw [Finset.sum_update_of_mem member, ← Finset.add_sum_erase _ (fun i => f (g i)) member, Finset.sdiff_singleton_eq_erase]
  omega

/-- A write that leaves `f` of the entry alone leaves it alone everywhere. -/
theorem update_kept {α β : Type*} (f : α → β) (g : ℕ → α) {k : ℕ} {v : α} (kept : f v = f (g k)) (i : ℕ) :
    f (Function.update g k v i) = f (g i) := by
  by_cases own : i = k
  · subst own
    rw [Function.update_self, kept]
  · rw [Function.update_of_ne own]

/-- The header fields that the queues read. `uid` tells packets apart. -/
structure Packet where
  uid : ℕ
  saddr : ℤ
  daddr : ℤ
  size : ℕ
deriving DecidableEq

/-- The packets of a `PacketQueue` from `head_` to `tail_`. -/
abbrev PacketQueue := List Packet

namespace PacketQueue

def enque (q : PacketQueue) (pkt : Packet) : PacketQueue := q ++ [pkt]

def deque (q : PacketQueue) : Option Packet × PacketQueue := (q.head?, q.tail)

end PacketQueue

end Ns2
