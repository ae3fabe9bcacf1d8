import Ns2.Library.ByteMemory
import Mathlib.Algebra.Order.BigOperators.Group.List

namespace Ns2

structure NRAttribute where
  key : BitVec 32
  type : BitVec 8
  op : BitVec 8
  len : BitVec 16
  val : List (BitVec 8)
deriving DecidableEq

def INT32_TYPE : BitVec 8 := 0
def FLOAT32_TYPE : BitVec 8 := 1
def FLOAT64_TYPE : BitVec 8 := 2
def STRING_TYPE : BitVec 8 := 3
def BLOB_TYPE : BitVec 8 := 4

/-- The number with the bytes of `x` in network order. -/
def htonl (order : ByteOrder) (x : BitVec 32) : BitVec 32 := BitVec.ofNat 32 (order.value (ByteOrder.big.bytes 4 x.toNat))

def ntohl (order : ByteOrder) (x : BitVec 32) : BitVec 32 := BitVec.ofNat 32 (ByteOrder.big.value (order.bytes 4 x.toNat))

def htons (order : ByteOrder) (x : BitVec 16) : BitVec 16 := BitVec.ofNat 16 (order.value (ByteOrder.big.bytes 2 x.toNat))

def ntohs (order : ByteOrder) (x : BitVec 16) : BitVec 16 := BitVec.ofNat 16 (ByteOrder.big.value (order.bytes 2 x.toNat))

namespace NRAttribute

open ByteMemory

/-- An integer or a float, by its bytes. -/
def simple (key : BitVec 32) (type op : BitVec 8) (val : List (BitVec 8)) : NRAttribute :=
  ⟨key, type, op, BitVec.ofNat 16 val.length, val⟩

/-- The constructor for strings on a string of `n` characters at an address, and that for blobs. `none` stands for
a length that `len_` makes negative. -/
def copied (key : BitVec 32) (type op : BitVec 8) (memory : ByteMemory) (address : ℤ) (n : ℕ) : Option NRAttribute :=
  if (BitVec.ofNat 16 n).toInt < 0 then none
  else some ⟨key, type, op, BitVec.ofNat 16 n, memory.read address (BitVec.ofNat 16 n).toNat⟩

/-- `getVal` of an integer. -/
def getVal (order : ByteOrder) (a : NRAttribute) : BitVec 32 := BitVec.ofNat 32 (order.value (a.val.take 4))

/-- Up to a multiple of `sizeof(int)`. -/
def pad (attrLen : ℤ) : ℤ := if attrLen % 4 = 0 then 0 else 4 - attrLen % 4

/-- `sizeof(PackedAttribute) - sizeof(int32_t) + attr_len + pad` -/
def stride (attrLen : ℤ) : ℤ := 12 - 4 + attrLen + pad attrLen

def sizeofHdrDiff : ℤ := 24

/-- `total_len` is an `int`. -/
def calculateSize (attrs : List NRAttribute) : BitVec 32 :=
  attrs.foldl (fun total a => total + BitVec.ofInt 32 (stride a.len.toInt)) 0

/-- The stores of one round of `PackAttrs`. -/
def packAttr (order : ByteOrder) (current : ℤ) (a : NRAttribute) : List Write :=
  let attrLen := a.len.toInt
  [⟨current, order.bytes 4 (htonl order a.key).toNat⟩, ⟨current + 4, [a.type]⟩, ⟨current + 5, [a.op]⟩,
    ⟨current + 6, order.bytes 2 (htons order a.len).toNat⟩] ++
  if attrLen > 0 then
    if a.type = INT32_TYPE then [⟨current + 8, order.bytes 4 (htonl order (a.getVal order)).toNat⟩]
    else [⟨current + 8, a.val.take attrLen.toNat⟩]
  else []

/-- The stores and `total_len`. -/
def packFrom (order : ByteOrder) : List NRAttribute → ℤ → BitVec 32 → List Write × BitVec 32
  | [], _, total => ([], total)
  | a :: attrs, current, total =>
    let rest := packFrom order attrs (current + stride a.len.toInt) (total + BitVec.ofInt 32 (stride a.len.toInt))
    (packAttr order current a ++ rest.1, rest.2)

def packAttrs (order : ByteOrder) (attrs : List NRAttribute) (start : ℤ) : List Write × BitVec 32 := packFrom order attrs start 0

/-- The attribute that a round of `UnpackAttrs` adds, if any. A string is searched for its end in `fuel` bytes. -/
def unpackAttr (order : ByteOrder) (fuel : ℕ) (memory : ByteMemory) (current : ℤ) : Option (List NRAttribute) :=
  let key := ntohl order (BitVec.ofNat 32 (order.value (memory.read current 4)))
  let type := memory (current + 4)
  let op := memory (current + 5)
  let attrLen := (ntohs order (BitVec.ofNat 16 (order.value (memory.read (current + 6) 2)))).toNat
  if type = INT32_TYPE then
    let val := ntohl order (BitVec.ofNat 32 (order.value (memory.read (current + 8) 4)))
    some [simple key type op (order.bytes 4 val.toNat)]
  else if type = FLOAT32_TYPE then some [simple key type op (memory.read (current + 8) 4)]
  else if type = FLOAT64_TYPE then some [simple key type op (memory.read (current + 8) 8)]
  else if type = STRING_TYPE then
    (memory.strlen (current + 8) fuel).bind fun n => (copied key type op memory (current + 8) (n + 1)).map ([·])
  else if type = BLOB_TYPE then (copied key type op memory (current + 8) attrLen).map ([·])
  else some []

def unpackFrom (order : ByteOrder) (fuel : ℕ) (memory : ByteMemory) : ℕ → ℤ → Option (List NRAttribute)
  | 0, _ => some []
  | numAttr + 1, current =>
    let attrLen := (ntohs order (BitVec.ofNat 16 (order.value (memory.read (current + 6) 2)))).toNat
    (unpackAttr order fuel memory current).bind fun made =>
      (unpackFrom order fuel memory numAttr (current + stride attrLen)).map (made ++ ·)

def unpackAttrs (order : ByteOrder) (fuel : ℕ) (memory : ByteMemory) (numAttr : ℕ) : Option (List NRAttribute) :=
  unpackFrom order fuel memory numAttr sizeofHdrDiff

/-- What the value of an attribute of each type is. -/
inductive Typed (a : NRAttribute) : Prop
  | int32 (type : a.type = INT32_TYPE) (size : a.val.length = 4)
  | float32 (type : a.type = FLOAT32_TYPE) (size : a.val.length = 4)
  | float64 (type : a.type = FLOAT64_TYPE) (size : a.val.length = 8)
  | string (type : a.type = STRING_TYPE) (body : List (BitVec 8)) (nonzero : 0 ∉ body) (text : a.val = body ++ [0])
  | blob (type : a.type = BLOB_TYPE)

structure WellFormed (a : NRAttribute) : Prop where
  len : a.len.toInt = a.val.length
  typed : a.Typed

variable {order : ByteOrder} {memory memory' : ByteMemory} {current start : ℤ} {a : NRAttribute} {attrs : List NRAttribute} {fuel : ℕ}

theorem bytes_htonl (order : ByteOrder) (x : BitVec 32) : order.bytes 4 (htonl order x).toNat = ByteOrder.big.bytes 4 x.toNat :=
  order.bytes_ofNat_value (by decide) (ByteOrder.big.length_bytes 4 x.toNat)

theorem bytes_htons (order : ByteOrder) (x : BitVec 16) : order.bytes 2 (htons order x).toNat = ByteOrder.big.bytes 2 x.toNat :=
  order.bytes_ofNat_value (by decide) (ByteOrder.big.length_bytes 2 x.toNat)

/-- A number is read from its bytes in network order. -/
theorem ntohl_bytes (order : ByteOrder) (x : BitVec 32) :
    ntohl order (BitVec.ofNat 32 (order.value (ByteOrder.big.bytes 4 x.toNat))) = x := by
  rw [ntohl, order.bytes_ofNat_value (by decide) (ByteOrder.big.length_bytes 4 x.toNat)]
  exact ByteOrder.big.ofNat_value_bytes (by decide) x

theorem ntohs_bytes (order : ByteOrder) (x : BitVec 16) :
    ntohs order (BitVec.ofNat 16 (order.value (ByteOrder.big.bytes 2 x.toNat))) = x := by
  rw [ntohs, order.bytes_ofNat_value (by decide) (ByteOrder.big.length_bytes 2 x.toNat)]
  exact ByteOrder.big.ofNat_value_bytes (by decide) x

theorem WellFormed.toNat_len (wellFormed : a.WellFormed) : a.len.toNat = a.val.length := by
  have len := wellFormed.len
  rw [BitVec.toInt_eq_toNat_cond] at len
  split_ifs at len <;> omega

theorem WellFormed.short (wellFormed : a.WellFormed) : a.val.length < 2 ^ 15 := by
  have len := wellFormed.len
  have small := BitVec.toInt_lt (x := a.len)
  omega

theorem WellFormed.ofNat_length (wellFormed : a.WellFormed) : BitVec.ofNat 16 a.val.length = a.len := by
  rw [← wellFormed.toNat_len]
  exact BitVec.eq_of_toNat_eq (by rw [BitVec.toNat_ofNat, Nat.mod_eq_of_lt a.len.isLt])

theorem WellFormed.text (wellFormed : a.WellFormed) (string : a.type = STRING_TYPE) :
    ∃ body : List (BitVec 8), 0 ∉ body ∧ a.val = body ++ [0] := by
  cases wellFormed.typed with
  | int32 int => exact absurd (string.symm.trans int) (by decide)
  | float32 float => exact absurd (string.symm.trans float) (by decide)
  | float64 float => exact absurd (string.symm.trans float) (by decide)
  | string _ body nonzero text => exact ⟨body, nonzero, text⟩
  | blob blob => exact absurd (string.symm.trans blob) (by decide)

/-- Whether what was written can be read. -/
def Kept (memory : ByteMemory) (writes : List Write) : Prop :=
  ∀ write ∈ writes, memory.read write.address write.bytes.length = write.bytes

theorem Kept.header (kept : Kept memory (packAttr order current a)) :
    ntohl order (BitVec.ofNat 32 (order.value (memory.read current 4))) = a.key ∧ memory (current + 4) = a.type ∧
      memory (current + 5) = a.op ∧ ntohs order (BitVec.ofNat 16 (order.value (memory.read (current + 6) 2))) = a.len := by
  have key := kept ⟨current, order.bytes 4 (htonl order a.key).toNat⟩ (by simp [packAttr])
  have type := kept ⟨current + 4, [a.type]⟩ (by simp [packAttr])
  have op := kept ⟨current + 5, [a.op]⟩ (by simp [packAttr])
  have len := kept ⟨current + 6, order.bytes 2 (htons order a.len).toNat⟩ (by simp [packAttr])
  simp only [ByteOrder.length_bytes, bytes_htonl, bytes_htons] at key len
  rw [List.length_singleton, read_one] at type op
  rw [key, len]
  exact ⟨ntohl_bytes order a.key, List.head_eq_of_cons_eq type, List.head_eq_of_cons_eq op, ntohs_bytes order a.len⟩

theorem Kept.int (kept : Kept memory (packAttr order current a)) (wellFormed : a.WellFormed) (int : a.type = INT32_TYPE)
    (size : a.val.length = 4) : memory.read (current + 8) 4 = ByteOrder.big.bytes 4 (a.getVal order).toNat := by
  have positive : a.len.toInt > 0 := by
    rw [wellFormed.len, size]
    decide
  have val := kept ⟨current + 8, order.bytes 4 (htonl order (a.getVal order)).toNat⟩
    (by simp only [packAttr, if_pos positive, if_pos int]; simp)
  simpa only [ByteOrder.length_bytes, bytes_htonl] using val

theorem Kept.val (kept : Kept memory (packAttr order current a)) (wellFormed : a.WellFormed) (other : a.type ≠ INT32_TYPE) :
    memory.read (current + 8) a.val.length = a.val := by
  by_cases positive : a.len.toInt > 0
  · have whole : a.val.take a.len.toInt.toNat = a.val := by
      rw [wellFormed.len]
      exact List.take_length
    have val := kept ⟨current + 8, a.val.take a.len.toInt.toNat⟩
      (by simp only [packAttr, if_pos positive, if_neg other]; simp)
    simpa only [whole] using val
  · have empty : a.val = [] := by
      have len := wellFormed.len
      exact List.eq_nil_of_length_eq_zero (by omega)
    rw [empty]
    rfl

theorem WellFormed.copied_eq (wellFormed : a.WellFormed) {address : ℤ} (val : memory.read address a.val.length = a.val) :
    copied a.key a.type a.op memory address a.val.length = some a := by
  have len := wellFormed.len
  rw [copied, wellFormed.ofNat_length, if_neg (by omega), wellFormed.toNat_len, val]

theorem WellFormed.simple_eq (wellFormed : a.WellFormed) {val : List (BitVec 8)} (same : val = a.val) :
    simple a.key a.type a.op val = a := by
  rw [simple, same, wellFormed.ofNat_length]

/-- A round of `UnpackAttrs` adds the attribute that was packed. -/
theorem Kept.unpackAttr (kept : Kept memory (packAttr order current a)) (wellFormed : a.WellFormed) (enough : 2 ^ 15 ≤ fuel) :
    unpackAttr order fuel memory current = some [a] := by
  obtain ⟨key, type, op, len⟩ := kept.header
  have length : (ntohs order (BitVec.ofNat 16 (order.value (memory.read (current + 6) 2)))).toNat = a.val.length := by
    rw [len, wellFormed.toNat_len]
  have short := wellFormed.short
  unfold NRAttribute.unpackAttr
  simp only [key, type, op, length]
  cases wellFormed.typed with
  | int32 int size =>
    have word := kept.int wellFormed int size
    have bytes : order.bytes 4 (a.getVal order).toNat = a.val := by
      rw [getVal, ← size, List.take_length]
      exact order.bytes_ofNat_value (by rw [size]; decide) rfl
    rw [if_pos int, word, ntohl_bytes, bytes, wellFormed.simple_eq rfl]
  | float32 float size =>
    have val := kept.val wellFormed (by rw [float]; decide)
    rw [size] at val
    rw [if_neg (by rw [float]; decide), if_pos float, val, wellFormed.simple_eq rfl]
  | float64 float size =>
    have val := kept.val wellFormed (by rw [float]; decide)
    rw [size] at val
    rw [if_neg (by rw [float]; decide), if_neg (by rw [float]; decide), if_pos float, val, wellFormed.simple_eq rfl]
  | string string body nonzero text =>
    have val := kept.val wellFormed (by rw [string]; decide)
    have length : a.val.length = body.length + 1 := by rw [text, List.length_append, List.length_singleton]
    have found : memory.strlen (current + 8) fuel = some body.length :=
      strlen_eq (by rw [← length, val, text]) nonzero (by omega)
    rw [if_neg (by rw [string]; decide), if_neg (by rw [string]; decide), if_neg (by rw [string]; decide), if_pos string, found,
      Option.bind_some, ← length, wellFormed.copied_eq val]
    rfl
  | blob blob =>
    have val := kept.val wellFormed (by rw [blob]; decide)
    rw [if_neg (by rw [blob]; decide), if_neg (by rw [blob]; decide), if_neg (by rw [blob]; decide), if_neg (by rw [blob]; decide),
      if_pos blob, wellFormed.copied_eq val]
    rfl

/-- Reading back a whole list. -/
theorem Kept.unpackFrom {total : BitVec 32} (kept : Kept memory (packFrom order attrs current total).1)
    (wellFormed : ∀ a ∈ attrs, a.WellFormed) (enough : 2 ^ 15 ≤ fuel) :
    unpackFrom order fuel memory attrs.length current = some attrs := by
  induction attrs generalizing current total with
  | nil => rfl
  | cons a attrs ih =>
    have first : Kept memory (packAttr order current a) := fun write member => kept write (List.mem_append_left _ member)
    have formed := wellFormed a List.mem_cons_self
    have rest := ih (fun write member => kept write (List.mem_append_right _ member))
      fun b member => wellFormed b (List.mem_cons_of_mem _ member)
    have length : ((ntohs order (BitVec.ofNat 16 (order.value (memory.read (current + 6) 2)))).toNat : ℤ) = a.len.toInt := by
      rw [first.header.2.2.2, formed.toNat_len, formed.len]
    rw [List.length_cons, NRAttribute.unpackFrom, first.unpackAttr formed enough, Option.bind_some]
    simp only [length, rest]
    rfl

/-- The number of bytes that a list takes, without the limits of an `int`. -/
def size (attrs : List NRAttribute) : ℤ := (attrs.map fun a => stride a.len.toInt).sum

theorem size_cons (a : NRAttribute) (attrs : List NRAttribute) : size (a :: attrs) = stride a.len.toInt + size attrs := List.sum_cons

/-- The padding takes less than an `int`. -/
theorem stride_bounds (n : ℤ) : n + 8 ≤ stride n ∧ stride n < n + 12 := by
  unfold stride pad
  split_ifs <;> omega

theorem size_nonneg (wellFormed : ∀ a ∈ attrs, a.WellFormed) : 0 ≤ size attrs := List.sum_nonneg fun n member => by
  obtain ⟨a, found, rfl⟩ := List.mem_map.mp member
  have len := (wellFormed a found).len
  have bounds := stride_bounds a.len.toInt
  omega

theorem WellFormed.written (wellFormed : a.WellFormed) {write : Write} (member : write ∈ packAttr order current a) :
    current ≤ write.address ∧ write.stop ≤ current + stride a.len.toInt := by
  have len := wellFormed.len
  have bounds := stride_bounds a.len.toInt
  simp only [packAttr, List.cons_append, List.nil_append, List.mem_cons] at member
  rcases member with rfl | rfl | rfl | rfl | member
  · simp only [Write.stop, ByteOrder.length_bytes]
    omega
  · simp only [Write.stop, List.length_singleton]
    omega
  · simp only [Write.stop, List.length_singleton]
    omega
  · simp only [Write.stop, ByteOrder.length_bytes]
    omega
  · split_ifs at member with positive int
    · have size : a.val.length = 4 := by
        cases wellFormed.typed with
        | int32 _ size => exact size
        | float32 float => exact absurd (int.symm.trans float) (by decide)
        | float64 float => exact absurd (int.symm.trans float) (by decide)
        | string string => exact absurd (int.symm.trans string) (by decide)
        | blob blob => exact absurd (int.symm.trans blob) (by decide)
      rw [List.mem_singleton.mp member]
      simp only [Write.stop, ByteOrder.length_bytes]
      omega
    · rw [List.mem_singleton.mp member]
      simp only [Write.stop, List.length_take]
      omega
    · exact absurd member List.not_mem_nil

theorem packAttr_upwards (order : ByteOrder) (current : ℤ) (a : NRAttribute) :
    (packAttr order current a).Pairwise fun earlier later => earlier.stop ≤ later.address := by
  unfold packAttr
  simp only
  split_ifs <;> simp [Write.stop] <;> omega

theorem packFrom_inside (wellFormed : ∀ a ∈ attrs, a.WellFormed) {total : BitVec 32} {write : Write}
    (member : write ∈ (packFrom order attrs current total).1) :
    current ≤ write.address ∧ write.stop ≤ current + size attrs := by
  induction attrs generalizing current total with
  | nil => exact absurd member List.not_mem_nil
  | cons a attrs ih =>
    have formed := wellFormed a List.mem_cons_self
    have others : ∀ b ∈ attrs, b.WellFormed := fun b member => wellFormed b (List.mem_cons_of_mem _ member)
    have positive := size_nonneg others
    have len := formed.len
    have bounds := stride_bounds a.len.toInt
    rw [size_cons]
    rcases List.mem_append.mp member with first | rest
    · have inside := formed.written first
      omega
    · have inside := ih others rest
      omega

theorem packFrom_upwards (wellFormed : ∀ a ∈ attrs, a.WellFormed) (total : BitVec 32) :
    (packFrom order attrs current total).1.Pairwise fun earlier later => earlier.stop ≤ later.address := by
  induction attrs generalizing current total with
  | nil => exact List.Pairwise.nil
  | cons a attrs ih =>
    have others : ∀ b ∈ attrs, b.WellFormed := fun b member => wellFormed b (List.mem_cons_of_mem _ member)
    refine List.pairwise_append.mpr ⟨packAttr_upwards order current a, ih others _, fun first member second later => ?_⟩
    exact ((wellFormed a List.mem_cons_self).written member).2.trans (packFrom_inside others later).1

theorem packFrom_total (order : ByteOrder) (attrs : List NRAttribute) (current : ℤ) (total : BitVec 32) :
    (packFrom order attrs current total).2 = total + BitVec.ofInt 32 (size attrs) := by
  induction attrs generalizing current total with
  | nil => exact (BitVec.add_zero total).symm
  | cons a attrs ih =>
    rw [packFrom]
    simp only [ih]
    rw [size_cons, BitVec.ofInt_add, BitVec.add_assoc]

theorem calculateSize_eq (attrs : List NRAttribute) : calculateSize attrs = BitVec.ofInt 32 (size attrs) := by
  have general (total : BitVec 32) : attrs.foldl (fun total a => total + BitVec.ofInt 32 (stride a.len.toInt)) total =
      total + BitVec.ofInt 32 (size attrs) := by
    induction attrs generalizing total with
    | nil => exact (BitVec.add_zero total).symm
    | cons a attrs ih => rw [List.foldl_cons, ih, size_cons, BitVec.ofInt_add, BitVec.add_assoc]
  exact (general 0).trans (BitVec.zero_add _)

/-- The last attribute is written near the end. -/
theorem packFrom_reaches (wellFormed : ∀ a ∈ attrs, a.WellFormed) (nonempty : attrs ≠ []) (order : ByteOrder) (current : ℤ)
    (total : BitVec 32) : ∃ write ∈ (packFrom order attrs current total).1, current + size attrs < write.stop + 2 ^ 16 := by
  induction attrs generalizing current total with
  | nil => exact absurd rfl nonempty
  | cons a attrs ih =>
    have others : ∀ b ∈ attrs, b.WellFormed := fun b member => wellFormed b (List.mem_cons_of_mem _ member)
    rw [size_cons]
    by_cases last : attrs = []
    · have formed := wellFormed a List.mem_cons_self
      have len := formed.len
      have short := formed.short
      have bounds := stride_bounds a.len.toInt
      refine ⟨⟨current, order.bytes 4 (htonl order a.key).toNat⟩, List.mem_append_left _ (by simp [packAttr]), ?_⟩
      rw [last, Write.stop, ByteOrder.length_bytes]
      simp only [size, List.map_nil, List.sum_nil]
      omega
    · obtain ⟨write, member, near⟩ := ih others last (current + stride a.len.toInt) (total + BitVec.ofInt 32 (stride a.len.toInt))
      exact ⟨write, List.mem_append_right _ member, by omega⟩

/-- Whether all stores are in a buffer of `size` bytes. -/
def Inside (start size : ℤ) (writes : List Write) : Prop := ∀ write ∈ writes, start ≤ write.address ∧ write.stop ≤ start + size

theorem inside_iff (wellFormed : ∀ a ∈ attrs, a.WellFormed) :
    Inside start (calculateSize attrs).toInt (packAttrs order attrs start).1 ↔ size attrs < 2 ^ 31 := by
  have nonneg := size_nonneg wellFormed
  have value : (calculateSize attrs).toInt = (size attrs).bmod (2 ^ 32) := by rw [calculateSize_eq, BitVec.toInt_ofInt]
  constructor
  · intro inside
    by_contra large
    have nonempty : attrs ≠ [] := fun none => by
      rw [none] at large
      exact large (by decide)
    obtain ⟨write, member, near⟩ := packFrom_reaches wellFormed nonempty order start 0
    have bound := (inside write member).2
    have wrapped : (size attrs).bmod (2 ^ 32) ≤ size attrs - 2 ^ 32 := by
      rw [Int.bmod_def]
      split_ifs <;> omega
    omega
  · intro small write member
    have exact : (size attrs).bmod (2 ^ 32) = size attrs := Int.bmod_eq_of_le (by omega) (by omega)
    rw [value, exact]
    exact packFrom_inside wellFormed member

/-- The same attributes are read back, `PackAttrs` answers the calculated size, and it stays in a buffer of that size
exactly when the size is in the range of an `int`. -/
theorem pack_unpack_iff (order : ByteOrder) (attrs : List NRAttribute) (wellFormed : ∀ a ∈ attrs, a.WellFormed) (memory : ByteMemory) :
    ((∀ fuel, 2 ^ 15 ≤ fuel →
        unpackAttrs order fuel (memory.applyAll (packAttrs order attrs sizeofHdrDiff).1) attrs.length = some attrs) ∧
      ∀ start, (packAttrs order attrs start).2 = calculateSize attrs ∧
        Inside start (calculateSize attrs).toInt (packAttrs order attrs start).1) ↔ size attrs < 2 ^ 31 := by
  constructor
  · rintro ⟨-, packed⟩
    exact (inside_iff wellFormed).mp (packed 0).2
  · intro small
    refine ⟨fun fuel enough => ?_, fun start => ⟨?_, (inside_iff wellFormed).mpr small⟩⟩
    · have kept : Kept (memory.applyAll (packAttrs order attrs sizeofHdrDiff).1) (packAttrs order attrs sizeofHdrDiff).1 :=
        fun write member => read_applyAll (packFrom_upwards wellFormed 0) member
      exact kept.unpackFrom wellFormed enough
    · rw [packAttrs, packFrom_total, calculateSize_eq]
      exact BitVec.zero_add _

/-- A scope and the string "hi". -/
def samples : List NRAttribute :=
  [⟨1001, INT32_TYPE, 0, 4, [7, 0, 0, 0]⟩, ⟨2003, STRING_TYPE, 5, 3, [104, 105, 0]⟩]

theorem pack_unpack_iff_sample :
    unpackAttrs .little (2 ^ 15) (applyAll (fun _ => 255) (packAttrs .little samples sizeofHdrDiff).1) 2 = some samples ∧
      (packAttrs .little samples 0).2 = calculateSize samples := by
  have wellFormed : ∀ a ∈ samples, a.WellFormed := by
    intro a member
    rcases List.mem_cons.mp member with rfl | member
    · exact ⟨by decide, .int32 rfl rfl⟩
    · rw [List.mem_singleton.mp member]
      exact ⟨by decide, .string rfl [104, 105] (by decide) rfl⟩
  obtain ⟨back, packed⟩ := (pack_unpack_iff .little samples wellFormed fun _ => 255).mpr (by decide)
  exact ⟨back (2 ^ 15) le_rfl, (packed 0).1⟩

/-- A blob of the largest length. -/
def full : NRAttribute := ⟨2001, BLOB_TYPE, 0, 32767, List.replicate 32767 0⟩

theorem full_wellFormed : full.WellFormed where
  len := by
    rw [full, List.length_replicate]
    decide
  typed := .blob rfl

/-- Blobs that take 2147516296 bytes. -/
theorem size_wraps : (∀ a ∈ List.replicate 65521 full, a.WellFormed) ∧
    ¬Inside 0 (calculateSize (List.replicate 65521 full)).toInt (packAttrs .little (List.replicate 65521 full) 0).1 := by
  have wellFormed : ∀ a ∈ List.replicate 65521 full, a.WellFormed := fun a member => List.eq_of_mem_replicate member ▸ full_wellFormed
  have stride : stride full.len.toInt = 32776 := by decide
  have large : size (List.replicate 65521 full) = 2147516296 := by
    rw [size, List.map_replicate, List.sum_replicate, stride]
    rfl
  refine ⟨wellFormed, fun inside => ?_⟩
  have small := (inside_iff wellFormed).mp inside
  rw [large] at small
  exact absurd small (by decide)

end NRAttribute

end Ns2
