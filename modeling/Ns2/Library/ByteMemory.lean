import Mathlib.Algebra.Order.Ring.Int
import Mathlib.Tactic.Common

inductive ByteOrder
  | little
  | big
deriving DecidableEq

namespace ByteOrder

variable {n x : ℕ} {word : List (BitVec 8)}

/-- The last `n` digits of a number to the base 256, least significant first. -/
def littleBytes : ℕ → ℕ → List (BitVec 8)
  | 0, _ => []
  | n + 1, x => BitVec.ofNat 8 x :: littleBytes n (x / 256)

def littleValue : List (BitVec 8) → ℕ
  | [] => 0
  | byte :: bytes => byte.toNat + 256 * littleValue bytes

/-- How a number of `n` bytes lies in memory. -/
def bytes (n x : ℕ) : ByteOrder → List (BitVec 8)
  | little => littleBytes n x
  | big => (littleBytes n x).reverse

def value (word : List (BitVec 8)) : ByteOrder → ℕ
  | little => littleValue word
  | big => littleValue word.reverse

theorem length_littleBytes (n x : ℕ) : (littleBytes n x).length = n := by
  induction n generalizing x with
  | zero => rfl
  | succ n ih => exact congrArg (· + 1) (ih (x / 256))

theorem littleValue_littleBytes (small : x < 256 ^ n) : littleValue (littleBytes n x) = x := by
  induction n generalizing x with
  | zero => exact (Nat.lt_one_iff.mp small).symm
  | succ n ih =>
    have rest : x / 256 < 256 ^ n := Nat.div_lt_of_lt_mul (small.trans_eq (pow_succ' 256 n))
    simp only [littleBytes, littleValue, ih rest, BitVec.toNat_ofNat]
    omega

theorem littleBytes_littleValue (bytes : List (BitVec 8)) : littleBytes bytes.length (littleValue bytes) = bytes := by
  induction bytes with
  | nil => rfl
  | cons byte bytes ih =>
    have small := byte.isLt
    have first : BitVec.ofNat 8 (byte.toNat + 256 * littleValue bytes) = byte := by
      apply BitVec.eq_of_toNat_eq
      rw [BitVec.toNat_ofNat]
      omega
    have rest : (byte.toNat + 256 * littleValue bytes) / 256 = littleValue bytes := by omega
    simp only [List.length_cons, littleBytes, littleValue, first, rest, ih]

theorem littleValue_lt (bytes : List (BitVec 8)) : littleValue bytes < 256 ^ bytes.length := by
  induction bytes with
  | nil => exact Nat.one_pos
  | cons byte bytes ih =>
    have small := byte.isLt
    simp only [littleValue, List.length_cons, pow_succ]
    omega

@[simp] theorem length_bytes (order : ByteOrder) (n x : ℕ) : (order.bytes n x).length = n := by
  cases order with
  | little => exact length_littleBytes n x
  | big => exact List.length_reverse.trans (length_littleBytes n x)

theorem value_bytes (order : ByteOrder) (small : x < 256 ^ n) : order.value (order.bytes n x) = x := by
  cases order with
  | little => exact littleValue_littleBytes small
  | big =>
    rw [bytes, value, List.reverse_reverse]
    exact littleValue_littleBytes small

theorem bytes_value (order : ByteOrder) (length : word.length = n) : order.bytes n (order.value word) = word := by
  subst length
  cases order with
  | little => exact littleBytes_littleValue word
  | big =>
    have reversed := littleBytes_littleValue word.reverse
    rw [List.length_reverse] at reversed
    rw [bytes, value, reversed, List.reverse_reverse]

theorem value_lt (order : ByteOrder) (length : word.length = n) : order.value word < 256 ^ n := by
  subst length
  cases order with
  | little => exact littleValue_lt word
  | big => exact (littleValue_lt word.reverse).trans_eq (congrArg (256 ^ ·) List.length_reverse)

/-- Bytes that are taken for a word lie in memory as they are. -/
theorem bytes_ofNat_value {w : ℕ} (order : ByteOrder) (size : 2 ^ w = 256 ^ n) (length : word.length = n) :
    order.bytes n (BitVec.ofNat w (order.value word)).toNat = word := by
  have small : order.value word < 2 ^ w := (order.value_lt length).trans_eq size.symm
  rw [BitVec.toNat_ofNat, Nat.mod_eq_of_lt small, order.bytes_value length]

theorem ofNat_value_bytes {w : ℕ} (order : ByteOrder) (size : 2 ^ w = 256 ^ n) (x : BitVec w) :
    BitVec.ofNat w (order.value (order.bytes n x.toNat)) = x := by
  rw [order.value_bytes (x.isLt.trans_eq size)]
  exact BitVec.eq_of_toNat_eq (by rw [BitVec.toNat_ofNat, Nat.mod_eq_of_lt x.isLt])

end ByteOrder

/-- Bytes by their address. -/
abbrev ByteMemory := ℤ → BitVec 8

namespace ByteMemory

structure Write where
  address : ℤ
  bytes : List (BitVec 8)
deriving DecidableEq

/-- One past the last address. -/
def Write.stop (write : Write) : ℤ := write.address + write.bytes.length

variable {memory memory' : ByteMemory} {address : ℤ} {n : ℕ} {write : Write} {writes : List Write}

def apply (memory : ByteMemory) (write : Write) : ByteMemory := fun i =>
  if write.address ≤ i ∧ i < write.stop then write.bytes.getD (i - write.address).toNat 0 else memory i

def applyAll (memory : ByteMemory) (writes : List Write) : ByteMemory := writes.foldl apply memory

def read (memory : ByteMemory) (address : ℤ) (n : ℕ) : List (BitVec 8) := (List.range n).map fun i : ℕ => memory (address + i)

/-- The number of bytes before the first zero, or `none` when there is no zero in so many bytes. -/
def strlen (memory : ByteMemory) (address : ℤ) : ℕ → Option ℕ
  | 0 => none
  | fuel + 1 => if memory address = 0 then some 0 else (strlen memory (address + 1) fuel).map (· + 1)

@[simp] theorem length_read (memory : ByteMemory) (address : ℤ) (n : ℕ) : (memory.read address n).length = n := by
  rw [read, List.length_map, List.length_range]

theorem read_congr (same : ∀ i, address ≤ i → i < address + n → memory' i = memory i) : memory'.read address n = memory.read address n :=
  List.map_congr_left fun i inside => same (address + i) (by omega) (by have := List.mem_range.mp inside; omega)

theorem read_one (memory : ByteMemory) (address : ℤ) : memory.read address 1 = [memory address] := by
  simp only [read, List.range_one, List.map_cons, List.map_nil, Nat.cast_zero, add_zero]

theorem read_succ (memory : ByteMemory) (address : ℤ) (n : ℕ) :
    memory.read address (n + 1) = memory address :: memory.read (address + 1) n := by
  simp only [read, List.range_succ_eq_map, List.map_cons, List.map_map, Nat.cast_zero, add_zero]
  refine congrArg _ (List.map_congr_left fun i _ => congrArg memory ?_)
  simp only [Nat.cast_succ]
  omega

theorem apply_apart {i : ℤ} (apart : i < write.address ∨ write.stop ≤ i) : memory.apply write i = memory i :=
  if_neg (by omega)

/-- What has been written is read back. -/
theorem read_written (memory : ByteMemory) (write : Write) : (memory.apply write).read write.address write.bytes.length = write.bytes := by
  refine List.ext_getElem (length_read _ _ _) fun i inside inside' => ?_
  have within : write.address ≤ write.address + i ∧ write.address + i < write.stop := by
    rw [Write.stop]
    omega
  simp only [read, List.getElem_map, List.getElem_range, apply, if_pos within, add_sub_cancel_left, Int.toNat_natCast]
  rw [List.getD_eq_getElem?_getD, List.getElem?_eq_getElem inside', Option.getD_some]

/-- Writes elsewhere leave a byte as it was. -/
theorem applyAll_apart {i : ℤ} (apart : ∀ write ∈ writes, i < write.address ∨ write.stop ≤ i) : memory.applyAll writes i = memory i := by
  induction writes generalizing memory with
  | nil => rfl
  | cons write writes ih =>
    rw [applyAll, List.foldl_cons]
    exact (ih fun other member => apart other (List.mem_cons_of_mem _ member)).trans (apply_apart (apart write List.mem_cons_self))

/-- Of writes that go upwards, each is read back. -/
theorem read_applyAll (upwards : writes.Pairwise fun earlier later => earlier.stop ≤ later.address) (member : write ∈ writes) :
    (memory.applyAll writes).read write.address write.bytes.length = write.bytes := by
  induction writes generalizing memory with
  | nil => exact absurd member List.not_mem_nil
  | cons first writes ih =>
    obtain ⟨above, upwards⟩ := List.pairwise_cons.mp upwards
    rcases List.mem_cons.mp member with rfl | member
    · refine (read_congr fun i _ below => ?_).trans (read_written memory write)
      exact applyAll_apart fun later member => Or.inl (below.trans_le (above later member))
    · exact ih upwards member

theorem strlen_eq {body : List (BitVec 8)} {fuel : ℕ} (text : memory.read address (body.length + 1) = body ++ [0])
    (nonzero : 0 ∉ body) (enough : body.length < fuel) : memory.strlen address fuel = some body.length := by
  induction body generalizing address fuel with
  | nil =>
    obtain ⟨fuel, rfl⟩ : ∃ left, fuel = left + 1 := ⟨fuel - 1, by simp only [List.length_nil] at enough; omega⟩
    have zero : memory address = 0 := by
      rw [List.length_nil, read_one] at text
      exact List.head_eq_of_cons_eq text
    exact if_pos zero
  | cons byte body ih =>
    obtain ⟨fuel, rfl⟩ : ∃ left, fuel = left + 1 := ⟨fuel - 1, by omega⟩
    rw [List.length_cons, read_succ, List.cons_append] at text
    have first : memory address = byte := List.head_eq_of_cons_eq text
    have shorter : body.length < fuel := by
      rw [List.length_cons] at enough
      omega
    have rest := ih (List.tail_eq_of_cons_eq text) (fun member => nonzero (List.mem_cons_of_mem _ member)) shorter
    have other : memory address ≠ 0 := fun zero => nonzero (List.mem_cons.mpr (Or.inl (zero.symm.trans first)))
    rw [strlen, if_neg other, rest]
    rfl

end ByteMemory
