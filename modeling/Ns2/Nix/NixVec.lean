import Mathlib.Data.BitVec
import Mathlib.Data.Nat.Bitwise
import Mathlib.Tactic.Common

namespace Ns2

/-- `Nix_t` has the width of a long. -/
abbrev Nix (W : ℕ) := BitVec W

def NIX_NONE {W : ℕ} : Nix W := 0xffffffff
def NIX_BPW {W : ℕ} : Nix W := 32

/-- What `m_pNV` holds: the only word itself, or the address of the words. -/
inductive NixStore (W : ℕ)
  | value (w : Nix W)
  | array (words : List (Nix W))
deriving DecidableEq

structure NixVec (W : ℕ) where
  m_pNV : NixStore W
  m_used : Nix W
  m_alth : Nix W
deriving DecidableEq

namespace NixStore

variable {W : ℕ}

/-- `none` where an address is taken for a word. -/
def asValue : NixStore W → Option (Nix W)
  | value w => some w
  | array _ => none

/-- `none` where a word is taken for an address. -/
def asArray : NixStore W → Option (List (Nix W))
  | value _ => none
  | array words => some words

end NixStore

namespace NixVec

variable {W : ℕ}

def make : NixVec W := ⟨.value 0, 0, 0⟩

def reset (v : NixVec W) : NixVec W := { v with m_used := 0 }

def lth (v : NixVec W) : Nix W := if v.m_alth = 0 then NIX_BPW else ((v.m_alth - 1) / NIX_BPW + 1) * NIX_BPW

/-- `none` is a write beyond the end. -/
def store (words : List (Nix W)) (i : ℕ) (w : Nix W) : Option (List (Nix W)) :=
  if i < words.length then some (words.set i w) else none

def orWord (words : List (Nix W)) (i : ℕ) (newbits : Nix W) : Option (List (Nix W)) := do
  let w ← words[i]?
  store words i (w ||| newbits)

/-- A larger array with the old words. What `new` leaves in it is overwritten. -/
def grow (v : NixVec W) (newlth : Nix W) : Option (List (Nix W)) := do
  let pNew := List.replicate (newlth / NIX_BPW).toNat 0
  let pNew ←
    if v.lth = NIX_BPW then v.m_pNV.asValue.bind fun w => store pNew 0 w
    else v.m_pNV.asArray.bind fun old =>
      (List.range (v.lth / NIX_BPW).toNat).foldlM (fun pNew k => old[k]?.bind fun w => store pNew k w) pNew
  store pNew (newlth / NIX_BPW - 1).toNat 0

/-- The words with the bits of `p` in them. -/
def place (v : NixVec W) (p : Nix W × Nix W) : Option (NixStore W) :=
  let i := (v.m_used / NIX_BPW).toNat
  if v.lth < v.m_used + p.2 then do
    let newlth := v.lth + NIX_BPW
    let pNew ← v.grow newlth
    if v.m_used = v.lth then
      (orWord pNew i (p.1 <<< (NIX_BPW - v.m_used + (newlth - 32) - p.2))).map .array
    else
      -- the rest of the last word, and the next one
      let left := v.lth - v.m_used
      let pNew ← orWord pNew i (p.1 >>> (p.2 - left))
      (orWord pNew (i + 1) (p.1 <<< (NIX_BPW - (p.2 - left)))).map .array
  else
    let newbits := p.1 <<< (NIX_BPW - v.m_used + (v.lth - 32) - p.2)
    if v.lth = NIX_BPW then v.m_pNV.asValue.map fun n => .value (n ||| newbits)
    else v.m_pNV.asArray.bind fun words => (orWord words i newbits).map .array

def add (v : NixVec W) (p : Nix W × Nix W) : Option (NixVec W) :=
  if p.2 = 0 then some v
  else (v.place p).map fun pNV =>
    { m_pNV := pNV, m_used := v.m_used + p.2, m_alth := if v.m_alth < v.m_used + p.2 then v.m_used + p.2 else v.m_alth }

def word (v : NixVec W) (i : Nix W) : Option (Nix W) :=
  if v.lth = NIX_BPW then v.m_pNV.asValue else v.m_pNV.asArray.bind fun words => words[i.toNat]?

/-- The mask is shifted as a signed long. -/
def mask (k : Nix W) : Nix W := (0x80000000 : Nix W).sshiftRight k.toNat

def extract (v : NixVec W) (n : Nix W) : Option (Nix W × NixVec W) :=
  let used := v.m_used
  let word := used / NIX_BPW
  let bit := used - word * NIX_BPW
  if v.m_alth < used + n then some (NIX_NONE, v)
  else if bit + n ≤ NIX_BPW then
    (v.word word).map fun w => ((w &&& mask (n - 1) >>> bit) >>> (NIX_BPW - bit - n), { v with m_used := used + n })
  else do
    let w ← v.word word
    let first := NIX_BPW - bit
    let second := n - first
    let words ← v.m_pNV.asArray
    let next ← words[(word + 1).toNat]?
    return ((w &&& mask (first - 1) >>> bit) <<< second ||| next >>> (NIX_BPW - second), { v with m_used := used + n })

/-- The values that a sequence of calls returns. -/
def extracts (v : NixVec W) : List (Nix W) → Option (List (Nix W))
  | [] => some []
  | n :: ns => do
    let (u, v) ← v.extract n
    let us ← v.extracts ns
    return u :: us

end NixVec

namespace NixVec

variable {W : ℕ} {v : NixVec W} {words front : List (Nix W)} {last w x : Nix W} {p : Nix W × Nix W} {pos r : ℕ}

/-- The bits that the mask leaves of `l` ones: all of them where a long has 32 bits, and the last one where it has 64. -/
def seen (W l : ℕ) : ℕ := if W = 32 then l else 1

theorem high_bit (W j : ℕ) : (0x80000000 : Nix W).getLsbD j = (decide (j < W) && decide (31 = j)) := by
  rw [show (0x80000000 : Nix W) = BitVec.ofNat W (2 ^ 31) from rfl, BitVec.getLsbD_ofNat, Nat.testBit_two_pow]

theorem mask_bits (width : W = 32 ∨ W = 64) (w k bit : Nix W) (inside : k.toNat + bit.toNat ≤ 31) :
    ((w &&& mask k >>> bit) >>> (31 - bit.toNat - k.toNat)).toNat =
      w.toNat / 2 ^ (31 - bit.toNat - k.toNat) % 2 ^ seen W (k.toNat + 1) := by
  refine Nat.eq_of_testBit_eq fun i => ?_
  rw [Nat.testBit_mod_two_pow, ← Nat.shiftRight_eq_div_pow, Nat.testBit_shiftRight, BitVec.testBit_toNat, BitVec.getLsbD_ushiftRight,
    BitVec.getLsbD_and, BitVec.ushiftRight_eq', BitVec.getLsbD_ushiftRight, mask, BitVec.getLsbD_sshiftRight, BitVec.testBit_toNat]
  generalize k.toNat = shift at *
  generalize bit.toNat = start at *
  have sum : shift + (start + (31 - start - shift + i)) = 31 + i := by omega
  rw [sum, high_bit]
  rcases width with rfl | rfl
  · have sign : (0x80000000 : Nix 32).msb = true := by decide
    have all : seen 32 (shift + 1) = shift + 1 := rfl
    rw [sign, all]
    by_cases inLow : i < shift + 1
    · have here : ¬ 32 ≤ start + (31 - start - shift + i) := by omega
      rw [decide_eq_false here, decide_eq_true inLow, Bool.not_false, Bool.true_and, Bool.true_and]
      by_cases top : 31 + i < 32
      · have zero : 31 = 31 + i := by omega
        rw [if_pos top, decide_eq_true top, decide_eq_true zero, Bool.and_true, Bool.and_true]
      · rw [if_neg top, Bool.and_true]
    · have beyond : 32 ≤ start + (31 - start - shift + i) := by omega
      rw [decide_eq_true beyond, decide_eq_false inLow, Bool.not_true, Bool.false_and, Bool.and_false, Bool.false_and]
  · have sign : (0x80000000 : Nix 64).msb = false := by decide
    have one : seen 64 (shift + 1) = 1 := rfl
    rw [sign, one]
    by_cases zero : i = 0
    · have here : ¬ 64 ≤ start + (31 - start - shift + i) := by omega
      have low : 31 + i < 64 := by omega
      have same : 31 = 31 + i := by omega
      have first : i < 1 := by omega
      rw [decide_eq_false here, if_pos low, decide_eq_true low, decide_eq_true same, decide_eq_true first, Bool.not_false,
        Bool.true_and, Bool.true_and, Bool.and_true, Bool.true_and]
    · have other : ¬ 31 = 31 + i := by omega
      have beyond : ¬ i < 1 := by omega
      rw [decide_eq_false other, decide_eq_false beyond, Bool.and_false, ite_self, Bool.and_false, Bool.and_false, Bool.false_and]

theorem bpw_toNat (width : W = 32 ∨ W = 64) : (NIX_BPW : Nix W).toNat = 32 := by
  rcases width with rfl | rfl <;> rfl

theorem room_le (width : W = 32 ∨ W = 64) : 2 ^ 32 ≤ 2 ^ W := by
  rcases width with rfl | rfl <;> decide

theorem word_toNat (width : W = 32 ∨ W = 64) (used : Nix W) : (used / NIX_BPW).toNat = used.toNat / 32 := by
  rw [BitVec.toNat_udiv, bpw_toNat width]

theorem bit_toNat (width : W = 32 ∨ W = 64) (used : Nix W) : (used - used / NIX_BPW * NIX_BPW).toNat = used.toNat % 32 := by
  have whole : (used / NIX_BPW * NIX_BPW).toNat = used.toNat / 32 * 32 := by
    rw [BitVec.toNat_mul, word_toNat width, bpw_toNat width]
    exact Nat.mod_eq_of_lt ((Nat.div_mul_le_self _ 32).trans_lt used.isLt)
  rw [BitVec.toNat_sub_of_le, whole]
  · omega
  · rw [BitVec.le_def, whole]
    exact Nat.div_mul_le_self _ 32

theorem lth_toNat (width : W = 32 ∨ W = 64) (room : v.m_alth.toNat + 32 ≤ 2 ^ W) : v.lth.toNat = ((v.m_alth.toNat - 1) / 32 + 1) * 32 := by
  have large := room_le width
  unfold lth
  split_ifs with zero
  · have none : (0 : Nix W).toNat = 0 := BitVec.toNat_zero
    rw [zero, bpw_toNat width, none]
  · have positive : v.m_alth.toNat ≠ 0 := fun same => zero (BitVec.eq_of_toNat_eq same)
    have one : (1 : Nix W).toNat = 1 := by rcases width with rfl | rfl <;> rfl
    have before : (v.m_alth - 1).toNat = v.m_alth.toNat - 1 := by
      rw [BitVec.toNat_sub_of_le, one]
      rw [BitVec.le_def, one]
      omega
    rw [BitVec.toNat_mul, BitVec.toNat_add, BitVec.toNat_udiv, before, one, bpw_toNat width]
    have small : (v.m_alth.toNat - 1) / 32 + 1 < 2 ^ W := by omega
    rw [Nat.mod_eq_of_lt small]
    refine Nat.mod_eq_of_lt ?_
    have multiple : 2 ^ W % 32 = 0 := by rcases width with rfl | rfl <;> rfl
    omega

/-- One word is kept in the place of the address. -/
def storeOf : List (Nix W) → NixStore W
  | [w] => .value w
  | words => .array words

structure Held (v : NixVec W) (words : List (Nix W)) : Prop where
  kept : v.m_pNV = storeOf words
  count : v.lth.toNat = words.length * 32

/-- The bits of `p` are in the words from `pos` on. Where `Nix_t` has 64 bits, what goes into a next word has
all its bits above those of the first word. -/
inductive Placed (words : List (Nix W)) (pos : ℕ) (p : Nix W × Nix W) : Prop
  | within (w : Nix W) (inside : pos % 32 + p.2.toNat ≤ 32) (here : words[pos / 32]? = some w)
      (bits : w.toNat / 2 ^ (32 - pos % 32 - p.2.toNat) % 2 ^ p.2.toNat = p.1.toNat)
  | across (w next : Nix W) (beyond : 32 < pos % 32 + p.2.toNat) (here : words[pos / 32]? = some w)
      (there : words[pos / 32 + 1]? = some next)
      (first : w.toNat % 2 ^ (32 - pos % 32) = p.1.toNat / 2 ^ (pos % 32 + p.2.toNat - 32))
      (second : next.toNat / 2 ^ (64 - pos % 32 - p.2.toNat) = p.1.toNat % 2 ^ (W + (pos % 32 + p.2.toNat) - 64))

/-- A value with a length that it fits in. -/
def Field (p : Nix W × Nix W) : Prop := 1 ≤ p.2.toNat ∧ p.2.toNat ≤ 32 ∧ p.1.toNat < 2 ^ p.2.toNat

instance (p : Nix W × Nix W) : Decidable (Field p) := inferInstanceAs (Decidable (_ ∧ _ ∧ _))

/-- What is read where `p` was placed. -/
def got (pos : ℕ) (p : Nix W × Nix W) : Nix W :=
  if pos % 32 + p.2.toNat ≤ 32 then BitVec.ofNat W (p.1.toNat % 2 ^ seen W p.2.toNat) else p.1

theorem Held.asArray (held : v.Held words) (many : words.length ≠ 1) : v.m_pNV.asArray = some words := by
  rw [held.kept]
  match words, many with
  | [], _ => rfl
  | w :: w' :: rest, _ => rfl
  | [_], many => exact absurd rfl many

theorem Held.word (held : v.Held words) (width : W = 32 ∨ W = 64) {i : Nix W} (inside : i.toNat < words.length) :
    v.word i = words[i.toNat]? := by
  unfold NixVec.word
  by_cases one : words.length = 1
  · obtain ⟨w, rfl⟩ := List.length_eq_one_iff.mp one
    have same : v.lth = NIX_BPW := BitVec.eq_of_toNat_eq (held.count.trans (bpw_toNat width).symm)
    have zero : i.toNat = 0 := Nat.lt_one_iff.mp inside
    rw [if_pos same, held.kept, zero]
    rfl
  · have other : v.lth ≠ NIX_BPW := by
      intro same
      have count := held.count
      rw [same, bpw_toNat width] at count
      omega
    rw [if_neg other, held.asArray one]
    rfl

/-- What the two words have of a value makes up the value. -/
theorem across_bits (width : W = 32 ∨ W = 64) {u l b : ℕ} (short : l ≤ 32) (small : u < 2 ^ l) (beyond : 32 < b + l) (start : b < 32)
    (first : w.toNat % 2 ^ (32 - b) = u / 2 ^ (b + l - 32)) :
    (w.toNat % 2 ^ seen W (31 - b + 1)) <<< (b + l - 32) % 2 ^ W ||| u % 2 ^ (W + (b + l) - 64) = u := by
  rcases width with rfl | rfl
  · have all : seen 32 (31 - b + 1) = 32 - b := by
      rw [seen, if_pos rfl]
      omega
    have low : 32 + (b + l) - 64 = b + l - 32 := by omega
    have fits : 2 ^ (b + l - 32) * (u / 2 ^ (b + l - 32)) < 2 ^ 32 :=
      (Nat.mul_div_le _ _).trans_lt (small.trans_le (Nat.pow_le_pow_right (by decide) short))
    rw [all, first, low, Nat.shiftLeft_eq, mul_comm, Nat.mod_eq_of_lt fits, ← Nat.two_pow_add_eq_or_of_lt (Nat.mod_lt _ (Nat.two_pow_pos _))]
    exact Nat.div_add_mod u _
  · have whole : u % 2 ^ (64 + (b + l) - 64) = u :=
      Nat.mod_eq_of_lt (small.trans_le (Nat.pow_le_pow_right (by decide) (by omega)))
    have one : w.toNat % 2 ^ seen 64 (31 - b + 1) = u / 2 ^ (b + l - 32) % 2 := by
      rw [← first, Nat.mod_mod_of_dvd _ (dvd_pow_self 2 (by omega))]
      rfl
    rw [whole, one]
    refine Nat.eq_of_testBit_eq fun i => ?_
    rw [Nat.testBit_or, Nat.testBit_mod_two_pow, Nat.testBit_shiftLeft]
    rcases Bool.eq_false_or_eq_true (u.testBit i) with set | clear
    · rw [set, Bool.or_true]
    · rw [clear, Bool.or_false]
      by_cases at' : b + l - 32 ≤ i
      · have last : (u / 2 ^ (b + l - 32) % 2).testBit (i - (b + l - 32)) = false := by
          rw [show u / 2 ^ (b + l - 32) % 2 = u / 2 ^ (b + l - 32) % 2 ^ 1 from rfl, Nat.testBit_mod_two_pow, ← Nat.shiftRight_eq_div_pow, Nat.testBit_shiftRight, Nat.add_sub_cancel' at', clear, Bool.and_false]
        rw [last, Bool.and_false, Bool.and_false]
      · rw [decide_eq_false at', Bool.false_and, Bool.and_false]

theorem extract_placed (width : W = 32 ∨ W = 64) (field : Field p) (held : v.Held words) (placed : Placed words v.m_used.toNat p)
    (inside : v.m_used.toNat + p.2.toNat ≤ v.m_alth.toNat) :
    v.extract p.2 = some (got v.m_used.toNat p, { v with m_used := v.m_used + p.2 }) := by
  obtain ⟨positive, short, small⟩ := field
  have word := word_toNat width v.m_used
  have available : ¬ v.m_alth < v.m_used + p.2 := by
    rw [BitVec.not_lt, BitVec.le_def, BitVec.toNat_add_of_lt (inside.trans_lt v.m_alth.isLt)]
    exact inside
  have large := room_le width
  have bpw := bpw_toNat width
  have bit := bit_toNat width v.m_used
  have one : (1 : Nix W).toNat = 1 := by rcases width with rfl | rfl <;> rfl
  have below : v.m_used.toNat % 32 + p.2.toNat < 2 ^ W := by omega
  have last : (v.m_used - v.m_used / NIX_BPW * NIX_BPW + p.2).toNat = v.m_used.toNat % 32 + p.2.toNat := by
    rw [BitVec.toNat_add_of_lt (by rw [bit]; exact below), bit]
  unfold extract
  dsimp only
  rw [if_neg available]
  generalize start : v.m_used - v.m_used / NIX_BPW * NIX_BPW = b at *
  generalize v.m_used.toNat = pos at *
  cases placed with
  | within w fits here bits =>
    have fit : b + p.2 ≤ NIX_BPW := by
      rw [BitVec.le_def, last, bpw]
      exact fits
    have at' : v.word (v.m_used / NIX_BPW) = some w := by
      rw [held.word width, word, here]
      rw [word]
      exact (List.getElem?_eq_some_iff.mp here).1
    have before : (p.2 - 1).toNat = p.2.toNat - 1 := by
      rw [BitVec.toNat_sub_of_le, one]
      rw [BitVec.le_def, one]
      exact positive
    have shift : (NIX_BPW - b - p.2).toNat = 31 - b.toNat - (p.2 - 1).toNat := by
      have first : (NIX_BPW - b).toNat = 32 - pos % 32 := by
        rw [BitVec.toNat_sub_of_le, bpw, bit]
        rw [BitVec.le_def, bit, bpw]
        omega
      rw [BitVec.toNat_sub_of_le, first, before, bit]
      · omega
      · rw [BitVec.le_def, first]
        omega
    have value := mask_bits width w (p.2 - 1) b (by rw [before, bit]; omega)
    rw [if_pos fit, at', Option.map_some, got, if_pos fits, BitVec.ushiftRight_eq', shift]
    refine congrArg (fun u => some (u, _)) (BitVec.eq_of_toNat_eq ?_)
    rw [value, BitVec.toNat_ofNat, before, Nat.sub_add_cancel positive]
    have narrow : seen W p.2.toNat ≤ p.2.toNat := by
      unfold seen
      split_ifs <;> omega
    have same : 31 - b.toNat - (p.2.toNat - 1) = 32 - pos % 32 - p.2.toNat := by
      rw [bit]
      omega
    rw [same, ← bits, Nat.mod_mod_of_dvd _ (pow_dvd_pow 2 narrow)]
    refine (Nat.mod_eq_of_lt ((Nat.mod_lt _ (Nat.two_pow_pos _)).trans_le ?_)).symm
    exact Nat.pow_le_pow_right (by decide) (narrow.trans (short.trans (by rcases width with rfl | rfl <;> decide)))
  | across w next beyond here there first second =>
    have far : ¬ b + p.2 ≤ NIX_BPW := by
      rw [BitVec.le_def, last, bpw]
      omega
    have inFirst : pos / 32 < words.length := (List.getElem?_eq_some_iff.mp here).1
    have at' : v.word (v.m_used / NIX_BPW) = some w := by
      rw [held.word width, word, here]
      rwa [word]
    have many : words.length ≠ 1 := by
      have inNext := (List.getElem?_eq_some_iff.mp there).1
      omega
    have after : (v.m_used / NIX_BPW + 1).toNat = pos / 32 + 1 := by
      rw [BitVec.toNat_add_of_lt, word, one]
      rw [word, one]
      have bound := (v.m_used / NIX_BPW).isLt
      rw [word] at bound
      omega
    have left : (NIX_BPW - b).toNat = 32 - pos % 32 := by
      rw [BitVec.toNat_sub_of_le, bpw, bit]
      rw [BitVec.le_def, bit, bpw]
      omega
    have before : (NIX_BPW - b - 1).toNat = 31 - pos % 32 := by
      rw [BitVec.toNat_sub_of_le, left, one]
      · omega
      · rw [BitVec.le_def, left, one]
        omega
    have excess : (p.2 - (NIX_BPW - b)).toNat = pos % 32 + p.2.toNat - 32 := by
      rw [BitVec.toNat_sub_of_le, left]
      · omega
      · rw [BitVec.le_def, left]
        omega
    have under : (NIX_BPW - (p.2 - (NIX_BPW - b))).toNat = 64 - pos % 32 - p.2.toNat := by
      rw [BitVec.toNat_sub_of_le, bpw, excess]
      · omega
      · rw [BitVec.le_def, excess, bpw]
        omega
    have value := mask_bits width w (NIX_BPW - b - 1) b (by rw [before, bit]; omega)
    have level : 31 - b.toNat - (NIX_BPW - b - 1).toNat = 0 := by
      rw [before, bit]
      omega
    rw [level, BitVec.ushiftRight_zero, pow_zero, Nat.div_one, before] at value
    rw [if_neg far, at', held.asArray many]
    simp only [Option.bind_eq_bind, Option.bind_some]
    rw [after, there, Option.bind_some, got, if_neg (by omega)]
    refine congrArg (fun u => some (u, _)) (BitVec.eq_of_toNat_eq ?_)
    rw [BitVec.toNat_or, BitVec.ushiftRight_eq' next, BitVec.toNat_ushiftRight, under, Nat.shiftRight_eq_div_pow, second,
      BitVec.shiftLeft_eq', BitVec.toNat_shiftLeft, excess, value]
    exact across_bits width short small beyond (by omega) first

end NixVec

end Ns2
