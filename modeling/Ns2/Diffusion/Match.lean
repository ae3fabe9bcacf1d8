import Ns2.Diffusion.AttrOrder

namespace Ns2

namespace NRAttribute

def IS : BitVec 8 := 0
def LE : BitVec 8 := 1
def GE : BitVec 8 := 2
def LT : BitVec 8 := 3
def GT : BitVec 8 := 4
def EQ : BitVec 8 := 5
def NE : BitVec 8 := 6
def EQ_ANY : BitVec 8 := 7

/-- An iterator is the rest of the vector from where it stands. The second part of the answer is `*place`. -/
def findKeyFrom (key : BitVec 32) : List NRAttribute → Option (NRAttribute × List NRAttribute)
  | [] => none
  | i :: rest => if i.key = key then some (i, i :: rest) else findKeyFrom key rest

def findMatchingKeyFrom (a : NRAttribute) (start : List NRAttribute) : Option (NRAttribute × List NRAttribute) :=
  findKeyFrom a.key start

theorem findKeyFrom_shorter {key : BitVec 32} {start place : List NRAttribute} {b : NRAttribute}
    (found : findKeyFrom key start = some (b, place)) : place.tail.length < start.length := by
  induction start with
  | nil => cases found
  | cons i rest ih =>
    rw [findKeyFrom] at found
    split_ifs at found with same
    · cases found
      exact Nat.lt_succ_self rest.length
    · exact Nat.lt_succ_of_lt (ih found)

/-- The loop of both one-way functions over the attributes with the key of `a`. `found` is the test that ends it. -/
def searchFrom (a : NRAttribute) (found : NRAttribute → Option Bool) (itr2 : List NRAttribute) : Option Bool :=
  match _at2 : a.findMatchingKeyFrom itr2 with
  | none => some false
  | some (b, place) => (found b).bind fun ends => if ends then some true else searchFrom a found place.tail
termination_by itr2.length
decreasing_by exact findKeyFrom_shorter _at2

/-- The test in `OneWayPerfectMatch`. -/
def perfectlyFound (host : Host) (a b : NRAttribute) : Option Bool :=
  if a.op = b.op then a.isEQ host b else some false

def oneWayPerfectMatch (host : Host) : List NRAttribute → List NRAttribute → Option Bool
  | [], _ => some true
  | a :: itr1, attrVec2 => (searchFrom a (perfectlyFound host a) attrVec2).bind fun found =>
    if found then oneWayPerfectMatch host itr1 attrVec2 else some false

def perfectMatch (host : Host) (attrVec1 attrVec2 : List NRAttribute) : Option Bool :=
  if attrVec1.length ≠ attrVec2.length then some false
  else (oneWayPerfectMatch host attrVec1 attrVec2).bind fun forth =>
    if forth then (oneWayPerfectMatch host attrVec2 attrVec1).bind fun back => if back then some true else some false
    else some false

/-- The test in `OneWayMatch`. -/
def foundAttr (host : Host) (a b : NRAttribute) : Option Bool :=
  if b.op ≠ IS then some false
  else if a.op = EQ_ANY then some true
  else if a.op = EQ then b.isEQ host a
  else if a.op = GT then b.isGT host a
  else if a.op = GE then b.isGE host a
  else if a.op = LT then b.isLT host a
  else if a.op = LE then b.isLE host a
  else if a.op = NE then b.isNE host a
  else some false

def oneWayMatch (host : Host) : List NRAttribute → List NRAttribute → Option Bool
  | [], _ => some true
  | a :: itr1, attrVec2 =>
    if a.op = IS then oneWayMatch host itr1 attrVec2
    else (searchFrom a (foundAttr host a) attrVec2).bind fun found =>
      if found then oneWayMatch host itr1 attrVec2 else some false

def matchAttrs (host : Host) (attrVec1 attrVec2 : List NRAttribute) : Option Bool :=
  (oneWayMatch host attrVec1 attrVec2).bind fun forth =>
    if forth then (oneWayMatch host attrVec2 attrVec1).bind fun back => if back then some true else some false
    else some false

/-- An answer that says whether `p`, from a call that did not abort. -/
def Answers (answer : Option Bool) (p : Prop) : Prop := (answer = some true ∧ p) ∨ (answer = some false ∧ ¬p)

section Answers

variable {answer answer' : Option Bool} {p q : Prop}

theorem Answers.yes (holds : p) : Answers (some true) p := Or.inl ⟨rfl, holds⟩

theorem Answers.no (fails : ¬p) : Answers (some false) p := Or.inr ⟨rfl, fails⟩

theorem Answers.iff (answers : Answers answer p) : answer = some true ↔ p := by
  rcases answers with ⟨rfl, holds⟩ | ⟨rfl, fails⟩
  · exact iff_of_true rfl holds
  · exact iff_of_false (by decide) fails

theorem Answers.isSome (answers : Answers answer p) : answer.isSome := by
  rcases answers with ⟨rfl, _⟩ | ⟨rfl, _⟩ <;> rfl

theorem Answers.congr (answers : Answers answer p) (same : p ↔ q) : Answers answer q := by
  rwa [propext same] at answers

theorem Answers.eq (answers : Answers answer p) (answers' : Answers answer' p) : answer = answer' := by
  rcases answers with ⟨rfl, holds⟩ | ⟨rfl, fails⟩ <;> rcases answers' with ⟨rfl, holds'⟩ | ⟨rfl, fails'⟩
  · rfl
  · exact absurd holds fails'
  · exact absurd holds' fails
  · rfl

theorem Answers.decide [Decidable p] : Answers (some (decide p)) p := by
  by_cases holds : p
  · rw [decide_eq_true holds]
    exact .yes holds
  · rw [decide_eq_false holds]
    exact .no holds

theorem Answers.map_not (answers : Answers answer p) : Answers (answer.map (!·)) (¬p) := by
  rcases answers with ⟨rfl, holds⟩ | ⟨rfl, fails⟩
  · exact .no (not_not.mpr holds)
  · exact .yes fails

theorem Answers.and (answers : Answers answer p) (answers' : Answers answer' q) :
    Answers (answer.bind fun first => if first then answer' else some false) (p ∧ q) := by
  rcases answers with ⟨rfl, holds⟩ | ⟨rfl, fails⟩
  · exact answers'.congr (by rw [and_iff_right holds])
  · exact .no fun both => fails both.1

theorem Answers.or (answers : Answers answer p) (answers' : Answers answer' q) :
    Answers (answer.bind fun first => if first then some true else answer') (p ∨ q) := by
  rcases answers with ⟨rfl, holds⟩ | ⟨rfl, fails⟩
  · exact .yes (Or.inl holds)
  · exact answers'.congr (by rw [or_iff_right fails])

theorem Answers.if_true (answers : Answers answer p) :
    Answers (answer.bind fun first => if first then some true else some false) p := by
  rcases answers with ⟨rfl, holds⟩ | ⟨rfl, fails⟩
  · exact .yes holds
  · exact .no fails

end Answers

section Search

variable {a b : NRAttribute} {found : NRAttribute → Option Bool} {P : NRAttribute → Prop} {itr2 : List NRAttribute}

theorem searchFrom_eq : searchFrom a found itr2 = (a.findMatchingKeyFrom itr2).elim (some false) fun at2 =>
    (found at2.1).bind fun ends => if ends then some true else searchFrom a found at2.2.tail := by
  rw [searchFrom]
  split <;> rename_i at2 <;> rw [at2] <;> rfl

theorem searchFrom_nil : searchFrom a found [] = some false := searchFrom_eq

theorem searchFrom_skip (other : b.key ≠ a.key) : searchFrom a found (b :: itr2) = searchFrom a found itr2 := by
  have skips : a.findMatchingKeyFrom (b :: itr2) = a.findMatchingKeyFrom itr2 := if_neg other
  rw [searchFrom_eq, searchFrom_eq, skips]

theorem searchFrom_test (same : b.key = a.key) : searchFrom a found (b :: itr2) =
    (found b).bind fun ends => if ends then some true else searchFrom a found itr2 := by
  have stops : a.findMatchingKeyFrom (b :: itr2) = some (b, b :: itr2) := if_pos same
  rw [searchFrom_eq, stops]
  rfl

/-- The search resumed behind each attribute that fails the test finds one that meets it if there is one. -/
theorem searchFrom_answers (tests : ∀ b ∈ itr2, b.key = a.key → Answers (found b) (P b)) :
    Answers (searchFrom a found itr2) (∃ b ∈ itr2, b.key = a.key ∧ P b) := by
  induction itr2 with
  | nil =>
    rw [searchFrom_nil]
    exact .no fun ⟨_, member, _⟩ => absurd member List.not_mem_nil
  | cons b itr2 ih =>
    have rest := ih fun b member => tests b (List.mem_cons_of_mem _ member)
    by_cases same : b.key = a.key
    · rw [searchFrom_test same]
      refine ((tests b List.mem_cons_self same).or rest).congr ?_
      simp only [List.exists_mem_cons_iff, same, true_and]
    · rw [searchFrom_skip same]
      refine rest.congr ?_
      simp only [List.exists_mem_cons_iff, same, false_and, false_or]

end Search

/-- The attributes of a list of integers. -/
def Int32Attrs : Type := {attrs : List NRAttribute // ∀ a ∈ attrs, a.type = INT32_TYPE}

/-- A value `y` that meets an operator and its operand `x`. -/
def Satisfies (op : BitVec 8) (y x : ℤ) : Prop :=
  op = EQ_ANY ∨ (op = EQ ∧ y = x) ∨ (op = GT ∧ y > x) ∨ (op = GE ∧ y ≥ x) ∨ (op = LT ∧ y < x) ∨ (op = LE ∧ y ≤ x) ∨ (op = NE ∧ y ≠ x)

section Satisfies

variable {y x : ℤ}

theorem satisfies_EQ : Satisfies EQ y x ↔ y = x := by simp [Satisfies, EQ, EQ_ANY, GT, GE, LT, LE, NE]

theorem satisfies_GT : Satisfies GT y x ↔ y > x := by simp [Satisfies, EQ, EQ_ANY, GT, GE, LT, LE, NE]

theorem satisfies_GE : Satisfies GE y x ↔ y ≥ x := by simp [Satisfies, EQ, EQ_ANY, GT, GE, LT, LE, NE]

theorem satisfies_LT : Satisfies LT y x ↔ y < x := by simp [Satisfies, EQ, EQ_ANY, GT, GE, LT, LE, NE]

theorem satisfies_LE : Satisfies LE y x ↔ y ≤ x := by simp [Satisfies, EQ, EQ_ANY, GT, GE, LT, LE, NE]

theorem satisfies_NE : Satisfies NE y x ↔ y ≠ x := by simp [Satisfies, EQ, EQ_ANY, GT, GE, LT, LE, NE]

end Satisfies

/-- Each attribute of the first list that asks for something finds it in the second. -/
def Met (host : Host) (attrVec1 attrVec2 : List NRAttribute) : Prop :=
  ∀ a ∈ attrVec1, a.op ≠ IS → ∃ b ∈ attrVec2, b.op = IS ∧ b.key = a.key ∧ Satisfies a.op (b.int host) (a.int host)

def Occurs (host : Host) (attrVec1 attrVec2 : List NRAttribute) : Prop :=
  ∀ a ∈ attrVec1, ∃ b ∈ attrVec2, b.key = a.key ∧ b.op = a.op ∧ b.int host = a.int host

section Int32

variable {host : Host} {a b : NRAttribute} {attrVec1 attrVec2 attrVec3 : List NRAttribute}

theorem isEQ_answers (int : a.type = INT32_TYPE) (int' : b.type = INT32_TYPE) (same : b.key = a.key) :
    Answers (b.isEQ host a) (b.int host = a.int host) := by
  rw [isEQ, isSameKey_iff.mpr ⟨int'.trans int.symm, same⟩, if_neg (by decide), if_pos int']
  exact .decide

theorem isGT_answers (int : a.type = INT32_TYPE) (int' : b.type = INT32_TYPE) (same : b.key = a.key) :
    Answers (b.isGT host a) (b.int host > a.int host) := by
  rw [isGT, isSameKey_iff.mpr ⟨int'.trans int.symm, same⟩, if_neg (by decide), if_pos int']
  exact .decide

theorem isGE_answers (int : a.type = INT32_TYPE) (int' : b.type = INT32_TYPE) (same : b.key = a.key) :
    Answers (b.isGE host a) (b.int host ≥ a.int host) := by
  rw [isGE, isSameKey_iff.mpr ⟨int'.trans int.symm, same⟩, if_neg (by decide), if_pos int']
  exact .decide

theorem perfectlyFound_answers (int : a.type = INT32_TYPE) (int' : b.type = INT32_TYPE) (same : b.key = a.key) :
    Answers (perfectlyFound host a b) (b.op = a.op ∧ b.int host = a.int host) := by
  rw [perfectlyFound]
  split_ifs with op
  · refine (isEQ_answers int' int same.symm).congr ?_
    rw [and_iff_right op.symm, eq_comm]
  · exact .no fun both => op both.1.symm

/-- Whichever branch is taken, the comparison is the one the operator stands for. -/
theorem foundAttr_answers (int : a.type = INT32_TYPE) (int' : b.type = INT32_TYPE) (same : b.key = a.key) :
    Answers (foundAttr host a b) (b.op = IS ∧ Satisfies a.op (b.int host) (a.int host)) := by
  rw [foundAttr]
  split_ifs with is any eq gt ge lt le ne
  · exact .no fun both => is both.1
  all_goals have is' : b.op = IS := not_not.mp is
  · exact .yes ⟨is', Or.inl any⟩
  · rw [eq, satisfies_EQ, and_iff_right is']
    exact isEQ_answers int int' same
  · rw [gt, satisfies_GT, and_iff_right is']
    exact isGT_answers int int' same
  · rw [ge, satisfies_GE, and_iff_right is']
    exact isGE_answers int int' same
  · rw [lt, satisfies_LT, and_iff_right is', ← not_le]
    exact (isGE_answers int int' same).map_not
  · rw [le, satisfies_LE, and_iff_right is', ← not_lt]
    exact (isGT_answers int int' same).map_not
  · rw [ne, satisfies_NE, and_iff_right is']
    exact (isEQ_answers int int' same).map_not
  · refine .no fun both => ?_
    rcases both.2 with is | ⟨is, _⟩ | ⟨is, _⟩ | ⟨is, _⟩ | ⟨is, _⟩ | ⟨is, _⟩ | ⟨is, _⟩
    exacts [any is, eq is, gt is, ge is, lt is, le is, ne is]

theorem oneWayPerfectMatch_answers (ints1 : ∀ a ∈ attrVec1, a.type = INT32_TYPE) (ints2 : ∀ b ∈ attrVec2, b.type = INT32_TYPE) :
    Answers (oneWayPerfectMatch host attrVec1 attrVec2) (Occurs host attrVec1 attrVec2) := by
  induction attrVec1 with
  | nil => exact .yes fun a member => absurd member List.not_mem_nil
  | cons a itr1 ih =>
    have int := ints1 a List.mem_cons_self
    have head : Answers (searchFrom a (perfectlyFound host a) attrVec2) _ :=
      searchFrom_answers fun b member same => perfectlyFound_answers int (ints2 b member) same
    refine (head.and (ih fun a member => ints1 a (List.mem_cons_of_mem _ member))).congr ?_
    rw [Occurs, Occurs, List.forall_mem_cons]

theorem oneWayMatch_answers (ints1 : ∀ a ∈ attrVec1, a.type = INT32_TYPE) (ints2 : ∀ b ∈ attrVec2, b.type = INT32_TYPE) :
    Answers (oneWayMatch host attrVec1 attrVec2) (Met host attrVec1 attrVec2) := by
  induction attrVec1 with
  | nil => exact .yes fun a member => absurd member List.not_mem_nil
  | cons a itr1 ih =>
    have int := ints1 a List.mem_cons_self
    have rest := ih fun a member => ints1 a (List.mem_cons_of_mem _ member)
    rw [oneWayMatch, Met, List.forall_mem_cons]
    split_ifs with is
    · refine rest.congr ?_
      rw [Met, and_iff_right fun asks => absurd is asks]
    · have head : Answers (searchFrom a (foundAttr host a) attrVec2) _ :=
        searchFrom_answers fun b member same => foundAttr_answers int (ints2 b member) same
      refine (head.and rest).congr (and_congr ?_ Iff.rfl)
      rw [forall_prop_of_true is]
      simp only [and_left_comm]

theorem matchAttrs_answers (ints1 : ∀ a ∈ attrVec1, a.type = INT32_TYPE) (ints2 : ∀ b ∈ attrVec2, b.type = INT32_TYPE) :
    Answers (matchAttrs host attrVec1 attrVec2) (Met host attrVec1 attrVec2 ∧ Met host attrVec2 attrVec1) :=
  (oneWayMatch_answers ints1 ints2).and (oneWayMatch_answers ints2 ints1).if_true

theorem perfectMatch_answers (ints1 : ∀ a ∈ attrVec1, a.type = INT32_TYPE) (ints2 : ∀ b ∈ attrVec2, b.type = INT32_TYPE) :
    Answers (perfectMatch host attrVec1 attrVec2)
      (attrVec1.length = attrVec2.length ∧ Occurs host attrVec1 attrVec2 ∧ Occurs host attrVec2 attrVec1) := by
  rw [perfectMatch]
  split_ifs with size
  · exact .no fun all => size all.1
  · refine ((oneWayPerfectMatch_answers ints1 ints2).and (oneWayPerfectMatch_answers ints2 ints1).if_true).congr ?_
    rw [and_iff_right (not_not.mp size)]

theorem occurs_refl (host : Host) (attrVec1 : List NRAttribute) : Occurs host attrVec1 attrVec1 :=
  fun a member => ⟨a, member, rfl, rfl, rfl⟩

theorem Occurs.trans (first : Occurs host attrVec1 attrVec2) (second : Occurs host attrVec2 attrVec3) :
    Occurs host attrVec1 attrVec3 := by
  intro a member
  obtain ⟨b, memberB, key, op, val⟩ := first a member
  obtain ⟨c, memberC, key', op', val'⟩ := second b memberB
  exact ⟨c, memberC, key'.trans key, op'.trans op, val'.trans val⟩

end Int32

/-- Neither function aborts; one tells whether each asks for what the other one is, the other whether both are the same attributes. -/
theorem matching_correct (host : Host) :
    (∀ attrVec1 attrVec2 : Int32Attrs, (matchAttrs host attrVec1.1 attrVec2.1).isSome ∧
      (matchAttrs host attrVec1.1 attrVec2.1 = some true ↔ Met host attrVec1.1 attrVec2.1 ∧ Met host attrVec2.1 attrVec1.1) ∧
      matchAttrs host attrVec1.1 attrVec2.1 = matchAttrs host attrVec2.1 attrVec1.1) ∧
    (∀ attrVec1 attrVec2 : Int32Attrs, (perfectMatch host attrVec1.1 attrVec2.1).isSome ∧
      (perfectMatch host attrVec1.1 attrVec2.1 = some true ↔
        attrVec1.1.length = attrVec2.1.length ∧ Occurs host attrVec1.1 attrVec2.1 ∧ Occurs host attrVec2.1 attrVec1.1)) ∧
    Equivalence fun attrVec1 attrVec2 : Int32Attrs => perfectMatch host attrVec1.1 attrVec2.1 = some true := by
  have matching (attrVec1 attrVec2 : Int32Attrs) : Answers (matchAttrs host attrVec1.1 attrVec2.1) _ := matchAttrs_answers attrVec1.2 attrVec2.2
  have perfect (attrVec1 attrVec2 : Int32Attrs) : Answers (perfectMatch host attrVec1.1 attrVec2.1) _ := perfectMatch_answers attrVec1.2 attrVec2.2
  refine ⟨fun attrVec1 attrVec2 => ?_, fun attrVec1 attrVec2 => ?_, ⟨fun attrVec1 => ?_, ?_, ?_⟩⟩
  · have answers := matching attrVec1 attrVec2
    exact ⟨answers.isSome, answers.iff, answers.eq ((matching attrVec2 attrVec1).congr and_comm)⟩
  · have answers := perfect attrVec1 attrVec2
    exact ⟨answers.isSome, answers.iff⟩
  · exact (perfect attrVec1 attrVec1).iff.mpr ⟨rfl, occurs_refl host _, occurs_refl host _⟩
  · intro attrVec1 attrVec2 same
    obtain ⟨size, forth, back⟩ := (perfect attrVec1 attrVec2).iff.mp same
    exact (perfect attrVec2 attrVec1).iff.mpr ⟨size.symm, back, forth⟩
  · intro attrVec1 attrVec2 attrVec3 same same'
    obtain ⟨size, forth, back⟩ := (perfect attrVec1 attrVec2).iff.mp same
    obtain ⟨size', forth', back'⟩ := (perfect attrVec2 attrVec3).iff.mp same'
    exact (perfect attrVec1 attrVec3).iff.mpr ⟨size.trans size', forth.trans forth', back'.trans back⟩

end NRAttribute

end Ns2
