import Ns2.Nix.NixVec

namespace Ns2

namespace NixVec

variable {W : ℕ} {v : NixVec W} {words words' front : List (Nix W)} {last last' w x : Nix W} {p : Nix W × Nix W}
  {fields : List (Nix W × Nix W)} {pos r : ℕ}

def total (fields : List (Nix W × Nix W)) : ℕ := (fields.map fun p => p.2.toNat).sum

theorem total_snoc : total (fields ++ [p]) = total fields + p.2.toNat := by
  simp [total]

/-- The fields are in the words one behind the other. -/
def Laid (words : List (Nix W)) : ℕ → List (Nix W × Nix W) → Prop
  | _, [] => True
  | pos, p :: ps => Placed words pos p ∧ Laid words (pos + p.2.toNat) ps

theorem Laid.snoc (laid : Laid words pos fields) (placed : Placed words (pos + total fields) p) : Laid words pos (fields ++ [p]) := by
  induction fields generalizing pos with
  | nil => exact ⟨placed, trivial⟩
  | cons q qs ih =>
    refine ⟨laid.1, ih laid.2 ?_⟩
    rwa [total, List.map_cons, List.sum_cons, ← Nat.add_assoc] at placed

/-- The words have grown, and what was in them is there still. The last one has more bits below its bit `r`. -/
structure Extends (front : List (Nix W)) (last : Nix W) (r : ℕ) (words : List (Nix W)) : Prop where
  before : ∀ i < front.length, words[i]? = front[i]?
  at' : ∃ last', words[front.length]? = some last' ∧ ∀ j, r ≤ j → last'.toNat / 2 ^ j = last.toNat / 2 ^ j

theorem Extends.getElem (extends' : Extends front last r words) {i : ℕ} (found : (front ++ [last])[i]? = some w) :
    words[i]? = some w ∧ i < front.length ∨
      i = front.length ∧ ∃ last', words[i]? = some last' ∧ ∀ j, r ≤ j → last'.toNat / 2 ^ j = w.toNat / 2 ^ j := by
  rcases Nat.lt_or_ge i front.length with inside | beyond
  · rw [List.getElem?_append_left inside] at found
    exact Or.inl ⟨(extends'.before i inside).trans found, inside⟩
  · have bound := (List.getElem?_eq_some_iff.mp found).1
    rw [List.length_append, List.length_singleton] at bound
    have same : i = front.length := by omega
    subst same
    rw [List.getElem?_concat_length] at found
    cases Option.some.inj found
    exact Or.inr ⟨rfl, extends'.at'⟩

theorem Placed.extend (placed : Placed (front ++ [last]) pos p) (extends' : Extends front last r words)
    (below : pos + p.2.toNat + r ≤ 32 * (front.length + 1)) : Placed words pos p := by
  cases placed with
  | within w fits here bits =>
    rcases extends'.getElem here with ⟨same, _⟩ | ⟨index, w', there, high⟩
    · exact .within w fits same bits
    · refine .within w' fits there ?_
      rw [high _ (by omega)]
      exact bits
  | across w next beyond here there first second =>
    have inNext := (List.getElem?_eq_some_iff.mp there).1
    rw [List.length_append, List.length_singleton] at inNext
    rcases extends'.getElem here with ⟨same, _⟩ | ⟨index, _⟩
    · rcases extends'.getElem there with ⟨also, _⟩ | ⟨index, next', also, high⟩
      · exact .across w next beyond same also first second
      · refine .across w next' beyond same also first ?_
        rw [high _ (by omega)]
        exact second
    · omega

theorem Laid.extend (laid : Laid (front ++ [last]) pos fields) (extends' : Extends front last r words)
    (below : pos + total fields + r ≤ 32 * (front.length + 1)) : Laid words pos fields := by
  induction fields generalizing pos with
  | nil => trivial
  | cons q qs ih =>
    rw [total, List.map_cons, List.sum_cons] at below
    exact ⟨laid.1.extend extends' (by omega), ih laid.2 (by unfold total; omega)⟩

/-- The bits below those in use are clear, and what goes there is added. -/
theorem or_toNat (clear : w.toNat % 2 ^ r = 0) (small : x.toNat < 2 ^ r) : (w ||| x).toNat = w.toNat + x.toNat := by
  have whole : 2 ^ r * (w.toNat / 2 ^ r) = w.toNat := by
    have sum := Nat.div_add_mod w.toNat (2 ^ r)
    rwa [clear, Nat.add_zero] at sum
  rw [BitVec.toNat_or, ← whole, Nat.two_pow_add_eq_or_of_lt small]

theorem high_bits (small : x.toNat < 2 ^ r) (clear : w.toNat % 2 ^ r = 0) {j : ℕ} (above : r ≤ j) :
    (w.toNat + x.toNat) / 2 ^ j = w.toNat / 2 ^ j := by
  have cut : 2 ^ j = 2 ^ r * 2 ^ (j - r) := by rw [← pow_add, Nat.add_sub_cancel' above]
  have whole : w.toNat = 2 ^ r * (w.toNat / 2 ^ r) := by
    have sum := Nat.div_add_mod w.toNat (2 ^ r)
    omega
  have drop : (w.toNat + x.toNat) / 2 ^ r = w.toNat / 2 ^ r := by
    rw [whole, Nat.mul_add_div (Nat.two_pow_pos r), Nat.div_eq_of_lt small, Nat.add_zero, Nat.mul_div_cancel_left _ (Nat.two_pow_pos r)]
  rw [cut, ← Nat.div_div_eq_div_mul, ← Nat.div_div_eq_div_mul, drop]

theorem orWord_append (rest : List (Nix W)) : orWord (front ++ w :: rest) front.length x = some (front ++ (w ||| x) :: rest) := by
  unfold orWord store
  rw [List.getElem?_append_right le_rfl, Nat.sub_self]
  simp

theorem copy_words (words : List (Nix W)) {k : ℕ} (within : k ≤ words.length) :
    (List.range k).foldlM (fun pNew k => words[k]?.bind fun w => store pNew k w) (List.replicate (words.length + 1) 0) =
      some (words.take k ++ List.replicate (words.length + 1 - k) 0) := by
  induction k with
  | zero => rfl
  | succ k ih =>
    have inside : k < words.length := within
    rw [List.range_succ, List.foldlM_append, ih (by omega)]
    simp only [Option.bind_eq_bind, Option.bind_some, List.foldlM_cons, List.foldlM_nil]
    rw [List.getElem?_eq_getElem inside, Option.bind_some, store, if_pos (by simp; omega)]
    have more : words.length + 1 - k = (words.length + 1 - (k + 1)) + 1 := by omega
    have short : (words.take k).length = k := List.length_take_of_le (by omega)
    rw [more, List.replicate_succ, List.set_append_right _ _ (by rw [short]), short, Nat.sub_self, List.set_cons_zero,
      List.append_cons, List.take_append_getElem inside]
    rfl

theorem storeOf_many (many : words.length ≠ 1) : storeOf words = .array words := by
  match words, many with
  | [], _ => rfl
  | w :: w' :: rest, _ => rfl
  | [_], many => exact absurd rfl many

theorem Field.nonzero (field : Field p) : p.2 ≠ 0 := by
  intro zero
  have positive := field.1
  have none : (0 : Nix W).toNat = 0 := BitVec.toNat_zero
  rw [zero, none] at positive
  exact absurd positive (by decide)

theorem Held.grow (held : v.Held (front ++ [last])) (width : W = 32 ∨ W = 64) {newlth : Nix W}
    (longer : newlth.toNat = (front.length + 2) * 32) : v.grow newlth = some (front ++ [last, 0]) := by
  have one : (1 : Nix W).toNat = 1 := by rcases width with rfl | rfl <;> rfl
  have size : (newlth / NIX_BPW).toNat = (front ++ [last]).length + 1 := by
    rw [word_toNat width, longer, List.length_append, List.length_singleton]
    omega
  have index : (newlth / NIX_BPW - 1).toNat = (front ++ [last]).length := by
    rw [BitVec.toNat_sub_of_le, size, one, Nat.add_sub_cancel]
    rw [BitVec.le_def, size, one]
    exact Nat.le_add_left 1 _
  have finish : store (front ++ [last] ++ [0]) (front ++ [last]).length 0 = some (front ++ [last, 0]) := by
    unfold store
    rw [if_pos (by simp), List.set_append_right _ _ le_rfl, Nat.sub_self, List.set_cons_zero, List.append_assoc]
    rfl
  unfold NixVec.grow
  dsimp only
  rw [size, index]
  by_cases single : front = []
  · subst single
    have same : v.lth = NIX_BPW := BitVec.eq_of_toNat_eq (held.count.trans (bpw_toNat width).symm)
    rw [if_pos same, held.kept]
    rfl
  · have other : v.lth ≠ NIX_BPW := by
      intro same
      have count := held.count
      have some : front.length ≠ 0 := fun zero => single (List.length_eq_zero_iff.mp zero)
      rw [same, bpw_toNat width, List.length_append, List.length_singleton] at count
      omega
    have many : (front ++ [last]).length ≠ 1 := by
      rw [List.length_append, List.length_singleton]
      exact fun one => single (List.length_eq_zero_iff.mp (by omega))
    have old : (v.lth / NIX_BPW).toNat = (front ++ [last]).length := by
      rw [word_toNat width, held.count, Nat.mul_div_cancel _ (by decide)]
    rw [if_neg other, held.asArray many, old]
    simp only [Option.bind_some, Option.bind_eq_bind]
    rw [copy_words (front ++ [last]) le_rfl, Option.bind_some, List.take_length, Nat.add_sub_cancel_left]
    exact finish

theorem shift_toNat (width : W = 32 ∨ W = 64) {used end' l : Nix W} (within : used.toNat + l.toNat ≤ end'.toNat) :
    (NIX_BPW - used + (end' - 32) - l).toNat = end'.toNat - used.toNat - l.toNat := by
  rcases width with rfl | rfl <;> unfold NIX_BPW <;> bv_omega

theorem add_placed {u : Nix W} {amount k : ℕ} (small : u.toNat < 2 ^ k) (narrow : k + amount ≤ W) :
    (u <<< amount).toNat = u.toNat * 2 ^ amount := by
  rw [BitVec.toNat_shiftLeft, Nat.shiftLeft_eq]
  refine Nat.mod_eq_of_lt ?_
  calc
    u.toNat * 2 ^ amount < 2 ^ k * 2 ^ amount := Nat.mul_lt_mul_of_pos_right small (Nat.two_pow_pos _)
    _ = 2 ^ (k + amount) := (pow_add 2 k amount).symm
    _ ≤ 2 ^ W := Nat.pow_le_pow_right (by decide) narrow

/-- A vector with its fields. -/
structure Packed (v : NixVec W) (fields : List (Nix W × Nix W)) (front : List (Nix W)) (last : Nix W) : Prop where
  held : v.Held (front ++ [last])
  used : v.m_used.toNat = total fields
  alth : v.m_alth = v.m_used
  high : total fields ≤ 32 * (front.length + 1)
  room : 32 * (front.length + 1) + 32 ≤ 2 ^ W
  clear : last.toNat % 2 ^ (32 * (front.length + 1) - total fields) = 0
  laid : Laid (front ++ [last]) 0 fields

/-- What goes into the last word. -/
theorem Placed.of_last (field : Field p) (start : 32 * front.length ≤ pos) (fits : pos + p.2.toNat ≤ 32 * (front.length + 1))
    (clear : w.toNat % 2 ^ (32 * (front.length + 1) - pos) = 0)
    (sum : x.toNat = w.toNat + p.1.toNat * 2 ^ (32 * (front.length + 1) - pos - p.2.toNat)) : Placed (front ++ [x]) pos p := by
  obtain ⟨positive, _, small⟩ := field
  have index : pos / 32 = front.length := by omega
  have here : (front ++ [x])[pos / 32]? = some x := by
    rw [index]
    exact List.getElem?_concat_length
  refine .within x (by omega) here ?_
  have shift : 32 - pos % 32 - p.2.toNat = 32 * (front.length + 1) - pos - p.2.toNat := by omega
  have cut : 2 ^ (32 * (front.length + 1) - pos) = 2 ^ (32 * (front.length + 1) - pos - p.2.toNat) * 2 ^ p.2.toNat := by
    rw [← pow_add, Nat.sub_add_cancel (by omega)]
  obtain ⟨q, whole⟩ := Nat.dvd_of_mod_eq_zero clear
  rw [shift, sum, Nat.add_mul_div_right _ _ (Nat.two_pow_pos _), whole, cut, Nat.mul_assoc, Nat.mul_div_cancel_left _ (Nat.two_pow_pos _),
    Nat.add_comm, Nat.add_mul_mod_self_left]
  exact Nat.mod_eq_of_lt small

theorem Packed.count (packed : Packed v fields front last) : v.lth.toNat = 32 * (front.length + 1) := by
  rw [packed.held.count, List.length_append, List.length_singleton, Nat.mul_comm]

/-- The words in use end in the last one. -/
theorem Packed.low (packed : Packed v fields front last) (width : W = 32 ∨ W = 64) :
    front = [] ∨ 32 * front.length < total fields := by
  have room := packed.room
  have alth : v.m_alth.toNat = total fields := packed.alth ▸ packed.used
  have high := packed.high
  have count := packed.count
  rw [lth_toNat width (by omega), alth] at count
  rcases Nat.eq_zero_or_pos front.length with none | some
  · exact Or.inl (List.length_eq_zero_iff.mp none)
  · exact Or.inr (by omega)

theorem Packed.sum (packed : Packed v fields front last) (bound : total fields + p.2.toNat < 2 ^ W) :
    (v.m_used + p.2).toNat = total fields + p.2.toNat := by
  rw [BitVec.toNat_add_of_lt (by rw [packed.used]; exact bound), packed.used]

/-- Once there is a place for the value the counters move. -/
theorem Packed.add_eq (packed : Packed v fields front last) (field : Field p) (bound : total fields + p.2.toNat < 2 ^ W)
    {store : NixStore W} (placed : v.place p = some store) : v.add p = some ⟨store, v.m_used + p.2, v.m_used + p.2⟩ := by
  have longer : v.m_alth < v.m_used + p.2 := by
    have positive := field.1
    rw [BitVec.lt_def, packed.alth, packed.used, packed.sum bound]
    omega
  unfold add
  rw [if_neg field.nonzero, placed, Option.map_some, if_pos longer]

theorem Packed.single (packed : Packed v fields [] last) (width : W = 32 ∨ W = 64) : v.lth = NIX_BPW :=
  BitVec.eq_of_toNat_eq (packed.count.trans (bpw_toNat width).symm)

theorem Packed.several (packed : Packed v fields front last) (width : W = 32 ∨ W = 64) (some : front ≠ []) : v.lth ≠ NIX_BPW := by
  intro same
  have count := packed.count
  have length : front.length ≠ 0 := fun zero => some (List.length_eq_zero_iff.mp zero)
  rw [same, bpw_toNat width] at count
  omega

theorem several_length (some : front ≠ []) (w : Nix W) : (front ++ [w]).length ≠ 1 := by
  rw [List.length_append, List.length_singleton]
  exact fun one => some (List.length_eq_zero_iff.mp (by omega))

/-- The vector whose last word gets the value. -/
theorem Packed.fill (packed : Packed v fields front last) (width : W = 32 ∨ W = 64) (field : Field p)
    (fits : total fields + p.2.toNat ≤ 32 * (front.length + 1)) :
    ∃ v' last', v.add p = some v' ∧ Packed v' (fields ++ [p]) front last' := by
  obtain ⟨positive, short, small⟩ := field
  have room := packed.room
  have sum := packed.sum (p := p) (by omega)
  have count := packed.count
  have start : 32 * front.length ≤ total fields := by
    rcases packed.low width with rfl | filled
    · exact Nat.zero_le _
    · exact filled.le
  have enough : ¬ v.lth < v.m_used + p.2 := by
    rw [BitVec.not_lt, BitVec.le_def, count, sum]
    exact fits
  have amount : (NIX_BPW - v.m_used + (v.lth - 32) - p.2).toNat = 32 * (front.length + 1) - total fields - p.2.toNat := by
    rw [shift_toNat width (by rw [packed.used, count]; exact fits), packed.used, count]
  have bits : (p.1 <<< (NIX_BPW - v.m_used + (v.lth - 32) - p.2)).toNat =
      p.1.toNat * 2 ^ (32 * (front.length + 1) - total fields - p.2.toNat) := by
    rw [BitVec.shiftLeft_eq', amount]
    refine add_placed small ?_
    rcases width with rfl | rfl <;> omega
  have low : (p.1 <<< (NIX_BPW - v.m_used + (v.lth - 32) - p.2)).toNat < 2 ^ (32 * (front.length + 1) - total fields) := by
    rw [bits]
    calc
      _ < 2 ^ p.2.toNat * 2 ^ (32 * (front.length + 1) - total fields - p.2.toNat) := Nat.mul_lt_mul_of_pos_right small (Nat.two_pow_pos _)
      _ = 2 ^ (32 * (front.length + 1) - total fields) := by rw [← pow_add, Nat.add_sub_cancel' (by omega)]
  have joined := or_toNat packed.clear low
  generalize made : p.1 <<< (NIX_BPW - v.m_used + (v.lth - 32) - p.2) = newbits at *
  have placed : v.place p = some (storeOf (front ++ [last ||| newbits])) := by
    unfold place
    dsimp only
    rw [if_neg enough, made]
    by_cases single : front = []
    · subst single
      rw [if_pos (packed.single width), packed.held.kept]
      rfl
    · have filled := (packed.low width).resolve_left single
      have index : (v.m_used / NIX_BPW).toNat = front.length := by
        rw [word_toNat width, packed.used]
        omega
      rw [if_neg (packed.several width single), packed.held.asArray (several_length single _), Option.bind_some, index, orWord_append,
        Option.map_some, storeOf_many (several_length single _)]
  refine ⟨_, last ||| newbits, packed.add_eq ⟨positive, short, small⟩ (by omega) placed, ?_⟩
  have extends' : Extends front last (32 * (front.length + 1) - total fields) (front ++ [last ||| newbits]) := by
    refine ⟨fun i inside => List.getElem?_append_left inside, last ||| newbits, List.getElem?_concat_length, ?_⟩
    intro j above
    rw [joined]
    exact high_bits low packed.clear above
  refine ⟨⟨rfl, ?_⟩, ?_, rfl, ?_, room, ?_, ?_⟩
  · rw [lth_toNat width (by dsimp only; rw [sum]; omega)]
    dsimp only
    rw [sum, List.length_append, List.length_singleton]
    rcases packed.low width with rfl | filled
    · simp only [List.length_nil] at fits ⊢
      omega
    · omega
  · rw [total_snoc]
    exact sum
  · rw [total_snoc]
    exact fits
  · rw [total_snoc, joined, bits, ← Nat.sub_sub]
    have dvd : 2 ^ (32 * (front.length + 1) - total fields - p.2.toNat) ∣ last.toNat :=
      (pow_dvd_pow 2 (Nat.sub_le _ _)).trans (Nat.dvd_of_mod_eq_zero packed.clear)
    exact Nat.mod_eq_zero_of_dvd (Nat.dvd_add dvd (Nat.dvd_mul_left _ _))
  · refine (packed.laid.extend extends' (by have high := packed.high; omega)).snoc ?_
    rw [Nat.zero_add]
    exact Placed.of_last ⟨positive, short, small⟩ start fits packed.clear (by rw [joined, bits])

theorem Packed.next_room (packed : Packed v fields front last) (width : W = 32 ∨ W = 64)
    (room : total fields + p.2.toNat + 32 ≤ 2 ^ W) (beyond : 32 * (front.length + 1) < total fields + p.2.toNat) :
    32 * (front.length + 2) + 32 ≤ 2 ^ W ∧ (v.lth + NIX_BPW).toNat = (front.length + 2) * 32 := by
  have multiple : 2 ^ W % 32 = 0 := by rcases width with rfl | rfl <;> rfl
  have enough : 32 * (front.length + 2) + 32 ≤ 2 ^ W := by omega
  refine ⟨enough, ?_⟩
  rw [BitVec.toNat_add_of_lt, packed.count, bpw_toNat width]
  · omega
  · rw [packed.count, bpw_toNat width]
    omega

/-- The last word is full, and the value goes into a next one. -/
theorem Packed.next (packed : Packed v fields front last) (width : W = 32 ∨ W = 64) (field : Field p)
    (room : total fields + p.2.toNat + 32 ≤ 2 ^ W) (full : total fields = 32 * (front.length + 1)) :
    ∃ v' last', v.add p = some v' ∧ Packed v' (fields ++ [p]) (front ++ [last]) last' := by
  obtain ⟨positive, short, small⟩ := field
  obtain ⟨room', longer⟩ := packed.next_room (p := p) width room (by omega)
  have count := packed.count
  have sum := packed.sum (p := p) (by omega)
  have beyond : v.lth < v.m_used + p.2 := by
    rw [BitVec.lt_def, count, sum]
    omega
  have atEnd : v.m_used = v.lth := BitVec.eq_of_toNat_eq (by rw [packed.used, count, full])
  have index : (v.m_used / NIX_BPW).toNat = (front ++ [last]).length := by
    rw [word_toNat width, packed.used, List.length_append, List.length_singleton]
    omega
  have amount : (NIX_BPW - v.m_used + (v.lth + NIX_BPW - 32) - p.2).toNat = 32 - p.2.toNat := by
    rw [shift_toNat width (by rw [packed.used, longer]; omega), packed.used, longer]
    omega
  have bits : (p.1 <<< (NIX_BPW - v.m_used + (v.lth + NIX_BPW - 32) - p.2)).toNat = p.1.toNat * 2 ^ (32 - p.2.toNat) := by
    rw [BitVec.shiftLeft_eq', amount]
    refine add_placed small ?_
    rcases width with rfl | rfl <;> omega
  generalize made : p.1 <<< (NIX_BPW - v.m_used + (v.lth + NIX_BPW - 32) - p.2) = newbits at *
  have zero : (0 : Nix W) ||| newbits = newbits := BitVec.zero_or
  have placed : v.place p = some (storeOf (front ++ [last] ++ [newbits])) := by
    unfold place
    dsimp only
    rw [if_pos beyond, packed.held.grow width longer]
    simp only [Option.bind_eq_bind, Option.bind_some]
    rw [if_pos atEnd, made, index, List.append_cons front last [0], orWord_append, Option.map_some, zero,
      storeOf_many (several_length (List.append_ne_nil_of_right_ne_nil front (List.cons_ne_nil last [])) _)]
  refine ⟨_, newbits, packed.add_eq ⟨positive, short, small⟩ (by omega) placed, ?_⟩
  have length : (front ++ [last]).length = front.length + 1 := by rw [List.length_append, List.length_singleton]
  have extends' : Extends front last 0 (front ++ [last] ++ [newbits]) := by
    refine ⟨fun i inside => ?_, last, ?_, fun j _ => rfl⟩
    · rw [List.append_assoc, List.getElem?_append_left inside]
    · rw [List.append_assoc, List.getElem?_append_right le_rfl, Nat.sub_self]
      rfl
  refine ⟨⟨rfl, ?_⟩, ?_, rfl, ?_, ?_, ?_, ?_⟩
  · rw [lth_toNat width (by dsimp only; rw [sum]; omega)]
    dsimp only
    rw [sum, List.length_append, length, List.length_singleton]
    omega
  · rw [total_snoc]
    exact sum
  · rw [total_snoc, length]
    omega
  · rw [length]
    exact room'
  · rw [total_snoc, length, bits]
    have level : 32 * (front.length + 1 + 1) - (total fields + p.2.toNat) = 32 - p.2.toNat := by omega
    rw [level]
    exact Nat.mul_mod_left _ _
  · refine (packed.laid.extend extends' (by omega)).snoc ?_
    rw [Nat.zero_add]
    refine Placed.of_last (w := 0) ⟨positive, short, small⟩ (by rw [length]; omega) (by rw [length]; omega) ?_ ?_
    · have none : (0 : Nix W).toNat = 0 := BitVec.toNat_zero
      rw [none, Nat.zero_mod]
    · have none : (0 : Nix W).toNat = 0 := BitVec.toNat_zero
      have level : 32 * ((front ++ [last]).length + 1) - total fields - p.2.toNat = 32 - p.2.toNat := by
        rw [length]
        omega
      rw [bits, none, Nat.zero_add, level]

/-- The value is divided between the last word and a next one. -/
theorem Packed.straddle (packed : Packed v fields front last) (width : W = 32 ∨ W = 64) (field : Field p)
    (room : total fields + p.2.toNat + 32 ≤ 2 ^ W) (notFull : total fields < 32 * (front.length + 1))
    (beyond : 32 * (front.length + 1) < total fields + p.2.toNat) :
    ∃ v' front' last', v.add p = some v' ∧ Packed v' (fields ++ [p]) front' last' := by
  obtain ⟨positive, short, small⟩ := field
  obtain ⟨room', longer⟩ := packed.next_room (p := p) width room beyond
  have count := packed.count
  have sum := packed.sum (p := p) (by omega)
  have bpw := bpw_toNat width
  have start : 32 * front.length ≤ total fields := by
    rcases packed.low width with rfl | filled
    · exact Nat.zero_le _
    · exact filled.le
  obtain ⟨r, left⟩ : ∃ r, r = 32 * (front.length + 1) - total fields := ⟨_, rfl⟩
  have beyond : v.lth < v.m_used + p.2 := by
    rw [BitVec.lt_def, count, sum]
    omega
  have notEnd : v.m_used ≠ v.lth := by
    intro same
    have used := packed.used
    rw [same, count] at used
    omega
  have index : (v.m_used / NIX_BPW).toNat = front.length := by
    rw [word_toNat width, packed.used]
    omega
  have leftAt : (v.lth - v.m_used).toNat = r := by
    rw [BitVec.toNat_sub_of_le, count, packed.used, left]
    rw [BitVec.le_def, count, packed.used]
    omega
  have rest : (p.2 - (v.lth - v.m_used)).toNat = p.2.toNat - r := by
    rw [BitVec.toNat_sub_of_le, leftAt]
    rw [BitVec.le_def, leftAt]
    omega
  have amount : (NIX_BPW - (p.2 - (v.lth - v.m_used))).toNat = 32 - (p.2.toNat - r) := by
    rw [BitVec.toNat_sub_of_le, rest, bpw]
    rw [BitVec.le_def, rest, bpw]
    omega
  have upper : (p.1 >>> (p.2 - (v.lth - v.m_used))).toNat = p.1.toNat / 2 ^ (p.2.toNat - r) := by
    rw [BitVec.ushiftRight_eq', BitVec.toNat_ushiftRight, rest, Nat.shiftRight_eq_div_pow]
  have low : (p.1 >>> (p.2 - (v.lth - v.m_used))).toNat < 2 ^ r := by
    rw [upper]
    refine Nat.div_lt_of_lt_mul ?_
    rwa [← pow_add, Nat.sub_add_cancel (by omega)]
  have lower : (p.1 <<< (NIX_BPW - (p.2 - (v.lth - v.m_used)))).toNat = p.1.toNat * 2 ^ (32 - (p.2.toNat - r)) % 2 ^ W := by
    rw [BitVec.shiftLeft_eq', BitVec.toNat_shiftLeft, Nat.shiftLeft_eq, amount]
  have wide : 2 ^ W = 2 ^ (W - (32 - (p.2.toNat - r))) * 2 ^ (32 - (p.2.toNat - r)) := by
    rw [← pow_add, Nat.sub_add_cancel (by rcases width with rfl | rfl <;> omega)]
  rw [wide, Nat.mul_mod_mul_right] at lower
  have clear : last.toNat % 2 ^ r = 0 := left ▸ packed.clear
  have joined := or_toNat clear low
  generalize madeHigh : p.1 >>> (p.2 - (v.lth - v.m_used)) = highBits at *
  generalize madeLow : p.1 <<< (NIX_BPW - (p.2 - (v.lth - v.m_used))) = lowBits at *
  have zero : (0 : Nix W) ||| lowBits = lowBits := BitVec.zero_or
  have placed : v.place p = some (storeOf (front ++ [last ||| highBits] ++ [lowBits])) := by
    unfold place
    dsimp only
    rw [if_pos beyond, packed.held.grow width longer]
    simp only [Option.bind_eq_bind, Option.bind_some]
    rw [if_neg notEnd, madeHigh, madeLow, index, orWord_append, Option.bind_some, List.append_cons front (last ||| highBits) [0]]
    have next : front.length + 1 = (front ++ [last ||| highBits]).length := by rw [List.length_append, List.length_singleton]
    rw [next, orWord_append, Option.map_some, zero,
      storeOf_many (several_length (List.append_ne_nil_of_right_ne_nil front (List.cons_ne_nil _ [])) _)]
  refine ⟨_, front ++ [last ||| highBits], lowBits, packed.add_eq ⟨positive, short, small⟩ (by omega) placed, ?_⟩
  have length : (front ++ [last ||| highBits]).length = front.length + 1 := by rw [List.length_append, List.length_singleton]
  have here : (front ++ [last ||| highBits] ++ [lowBits])[front.length]? = some (last ||| highBits) := by
    rw [List.append_assoc, List.getElem?_append_right le_rfl, Nat.sub_self]
    rfl
  have there : (front ++ [last ||| highBits] ++ [lowBits])[front.length + 1]? = some lowBits := by
    rw [← length]
    exact List.getElem?_concat_length
  have extends' : Extends front last r (front ++ [last ||| highBits] ++ [lowBits]) := by
    refine ⟨fun i inside => ?_, last ||| highBits, here, fun j above => ?_⟩
    · rw [List.append_assoc, List.getElem?_append_left inside]
    · rw [joined]
      exact high_bits low clear above
  refine ⟨⟨rfl, ?_⟩, ?_, rfl, ?_, ?_, ?_, ?_⟩
  · rw [lth_toNat width (by dsimp only; rw [sum]; omega)]
    dsimp only
    rw [sum, List.length_append, length, List.length_singleton]
    omega
  · rw [total_snoc]
    exact sum
  · rw [total_snoc, length]
    omega
  · rw [length]
    exact room'
  · have level : 32 * ((front ++ [last ||| highBits]).length + 1) - total (fields ++ [p]) = 32 - (p.2.toNat - r) := by
      rw [total_snoc, length]
      omega
    rw [level, lower]
    exact Nat.mul_mod_left _ _
  · refine (packed.laid.extend extends' (by omega)).snoc ?_
    rw [Nat.zero_add]
    have word : total fields / 32 = front.length := by omega
    have bit : total fields % 32 = 32 - r := by omega
    refine .across (last ||| highBits) lowBits (by rw [bit]; omega) (word ▸ here) (word ▸ there) ?_ ?_
    · have mask : 32 - total fields % 32 = r := by omega
      have shift : total fields % 32 + p.2.toNat - 32 = p.2.toNat - r := by omega
      rw [mask, shift, joined, Nat.add_mod, clear, Nat.zero_add, Nat.mod_mod, upper]
      exact Nat.mod_eq_of_lt (upper ▸ low)
    · have shift : 64 - total fields % 32 - p.2.toNat = 32 - (p.2.toNat - r) := by omega
      have cut : W + (total fields % 32 + p.2.toNat) - 64 = W - (32 - (p.2.toNat - r)) := by omega
      rw [shift, cut, lower]
      exact Nat.mul_div_cancel _ (Nat.two_pow_pos _)

theorem Packed.add (packed : Packed v fields front last) (width : W = 32 ∨ W = 64) (field : Field p)
    (room : total fields + p.2.toNat + 32 ≤ 2 ^ W) :
    ∃ v' front' last', v.add p = some v' ∧ Packed v' (fields ++ [p]) front' last' := by
  rcases Nat.lt_or_ge (32 * (front.length + 1)) (total fields + p.2.toNat) with beyond | fits
  · rcases Nat.lt_or_ge (total fields) (32 * (front.length + 1)) with notFull | full
    · exact packed.straddle width field room notFull beyond
    · obtain ⟨v', last', added, packed'⟩ := packed.next width field room (packed.high.antisymm full)
      exact ⟨v', _, last', added, packed'⟩
  · obtain ⟨v', last', added, packed'⟩ := packed.fill width field fits
    exact ⟨v', front, last', added, packed'⟩

/-- Where the counters run over, the words that are written are not there. -/
theorem Packed.overrun (packed : Packed v fields front last) (width : W = 32 ∨ W = 64) (field : Field p)
    (beyond : 2 ^ W < total fields + p.2.toNat + 32) : v.add p = none := by
  have large := room_le width
  have multiple : 2 ^ W % 32 = 0 := by rcases width with rfl | rfl <;> rfl
  have count := packed.count
  have high := packed.high
  have room := packed.room
  obtain ⟨positive, short, small⟩ := field
  have length : 32 * (front.length + 1) + 32 = 2 ^ W := by omega
  have several : front ≠ [] := by
    intro none
    rw [none] at length
    simp only [List.length_nil] at length
    omega
  have nowhere : v.place p = none := by
    unfold place
    dsimp only
    rcases Nat.lt_or_ge (total fields + p.2.toNat) (2 ^ W) with below | wraps
    · have sum := packed.sum below
      have beyond : v.lth < v.m_used + p.2 := by
        rw [BitVec.lt_def, count, sum]
        omega
      have zero : v.lth + NIX_BPW = 0 := by
        refine BitVec.eq_of_toNat_eq ?_
        have none : (0 : Nix W).toNat = 0 := BitVec.toNat_zero
        rw [BitVec.toNat_add, count, bpw_toNat width, length, Nat.mod_self, none]
      have words : ((0 : Nix W) / NIX_BPW).toNat = 0 := by
        have none : (0 : Nix W).toNat = 0 := BitVec.toNat_zero
        rw [word_toNat width, none]
      have copies : (v.lth / NIX_BPW).toNat = front.length + 1 := by
        rw [word_toNat width, count]
        omega
      have noGrowth : v.grow 0 = none := by
        unfold grow
        dsimp only
        rw [words, if_neg (packed.several width several), packed.held.asArray (several_length several _), Option.bind_some, copies,
          List.range_succ_eq_map, List.foldlM_cons]
        have stored : ((front ++ [last])[0]?.bind fun w => store (List.replicate 0 0) 0 w) = none := by
          cases (front ++ [last])[0]? <;> rfl
        rw [stored]
        rfl
      rw [if_pos beyond, zero, noGrowth]
      rfl
    · have sum : (v.m_used + p.2).toNat = 0 := by
        have both : total fields + p.2.toNat = 2 ^ W := by omega
        rw [BitVec.toNat_add, packed.used, both, Nat.mod_self]
      have enough : ¬ v.lth < v.m_used + p.2 := by
        rw [BitVec.lt_def, sum]
        omega
      have index : (v.m_used / NIX_BPW).toNat = (front ++ [last]).length := by
        rw [word_toNat width, packed.used, List.length_append, List.length_singleton]
        omega
      rw [if_neg enough, if_neg (packed.several width several), packed.held.asArray (several_length several _), Option.bind_some, index,
        orWord, List.getElem?_eq_none le_rfl]
      rfl
  unfold NixVec.add
  rw [if_neg (Field.nonzero ⟨positive, short, small⟩), nowhere]
  rfl

end NixVec

end Ns2
