import Ns2.Nix.NixVecAdd

namespace Ns2

namespace NixVec

variable {W : ℕ} {v : NixVec W} {words front : List (Nix W)} {last n : Nix W} {p : Nix W × Nix W}
  {fields rest : List (Nix W × Nix W)} {pos : ℕ}

/-- What is put into an empty vector is read from it again, and then there is nothing more. -/
def RoundTrip (fields : List (Nix W × Nix W)) : Prop :=
  ∃ v, fields.foldlM add make = some v ∧ ∀ n : Nix W, 1 ≤ n.toNat → n.toNat ≤ 32 →
    v.reset.extracts (fields.map Prod.snd ++ [n]) = some (fields.map Prod.fst ++ [NIX_NONE])

theorem make_packed (width : W = 32 ∨ W = 64) : Packed (make : NixVec W) [] [] 0 := by
  have none : (0 : Nix W).toNat = 0 := BitVec.toNat_zero
  have large := room_le width
  refine ⟨⟨rfl, ?_⟩, none, rfl, Nat.zero_le _, ?_, ?_, trivial⟩
  · have empty : (make : NixVec W).lth = NIX_BPW := if_pos rfl
    rw [empty, bpw_toNat width]
    rfl
  · have small : 32 * (([] : List (Nix W)).length + 1) + 32 = 64 := rfl
    rw [small]
    exact le_trans (by decide) large
  · rw [none, Nat.zero_mod]

theorem total_nil : total ([] : List (Nix W × Nix W)) = 0 := rfl

theorem total_cons : total (p :: fields) = p.2.toNat + total fields := rfl

theorem Packed.adds (packed : Packed v fields front last) (width : W = 32 ∨ W = 64) (valid : ∀ p ∈ rest, Field p)
    (room : total fields + total rest + 32 ≤ 2 ^ W) :
    ∃ v' front' last', rest.foldlM NixVec.add v = some v' ∧ Packed v' (fields ++ rest) front' last' := by
  induction rest generalizing v fields front last with
  | nil => exact ⟨v, front, last, rfl, by rwa [List.append_nil]⟩
  | cons p rest ih =>
    rw [total_cons] at room
    obtain ⟨first, valid⟩ := List.forall_mem_cons.mp valid
    obtain ⟨v', front', last', added, packed'⟩ := packed.add width first (by omega)
    obtain ⟨v'', front'', last'', more, packed''⟩ := ih packed' valid (by rw [total_snoc]; omega)
    refine ⟨v'', front'', last'', ?_, by rwa [List.append_assoc] at packed''⟩
    rw [List.foldlM_cons, added]
    exact more

theorem Packed.adds_overrun (packed : Packed v fields front last) (width : W = 32 ∨ W = 64) (valid : ∀ p ∈ rest, Field p)
    (beyond : 2 ^ W < total fields + total rest + 32) : rest.foldlM NixVec.add v = none := by
  induction rest generalizing v fields front last with
  | nil =>
    have high := packed.high
    have room := packed.room
    rw [total_nil] at beyond
    omega
  | cons p rest ih =>
    rw [total_cons] at beyond
    obtain ⟨first, valid⟩ := List.forall_mem_cons.mp valid
    rw [List.foldlM_cons]
    rcases Nat.lt_or_ge (2 ^ W) (total fields + p.2.toNat + 32) with now | later
    · rw [packed.overrun width first now]
      rfl
    · obtain ⟨v', front', last', added, packed'⟩ := packed.add width first later
      rw [added]
      exact ih packed' valid (by rw [total_snoc]; omega)

/-- What is read, field by field. -/
def gots : ℕ → List (Nix W × Nix W) → List (Nix W)
  | _, [] => []
  | pos, p :: ps => got pos p :: gots (pos + p.2.toNat) ps

theorem extracts_laid (width : W = 32 ∨ W = 64) (held : v.Held words) (valid : ∀ p ∈ fields, Field p)
    (laid : Laid words v.m_used.toNat fields) (inside : v.m_used.toNat + total fields ≤ v.m_alth.toNat) (n : Nix W) :
    ∃ used : Nix W, used.toNat = v.m_used.toNat + total fields ∧
      v.extracts (fields.map Prod.snd ++ [n]) = ({ v with m_used := used }.extract n).map fun last : Nix W × NixVec W =>
        gots v.m_used.toNat fields ++ [last.1] := by
  induction fields generalizing v with
  | nil =>
    refine ⟨v.m_used, rfl, ?_⟩
    rw [List.map_nil, List.nil_append, extracts]
    cases v.extract n with
    | none => rfl
    | some last => rfl
  | cons p ps ih =>
    rw [total_cons] at inside
    obtain ⟨first, valid⟩ := List.forall_mem_cons.mp valid
    have bound := v.m_alth.isLt
    have moved : (v.m_used + p.2).toNat = v.m_used.toNat + p.2.toNat := BitVec.toNat_add_of_lt (by omega)
    have read := extract_placed width first held laid.1 (by omega)
    obtain ⟨used, atEnd, others⟩ := ih (v := { v with m_used := v.m_used + p.2 }) ⟨held.kept, held.count⟩ valid
      (by rw [moved]; exact laid.2) (by rw [moved]; dsimp only; omega)
    refine ⟨used, by rw [atEnd, moved, total_cons]; omega, ?_⟩
    rw [List.map_cons, List.cons_append, extracts, read]
    simp only [Option.bind_eq_bind, Option.bind_some]
    rw [others, moved]
    cases NixVec.extract { v with m_used := used } n with
    | none => rfl
    | some last => rfl

/-- At the very end of the counters a whole word more is looked for behind the words. -/
theorem extract_overrun (width : W = 32 ∨ W = 64) (held : v.Held words) (many : words.length ≠ 1)
    (atEnd : v.m_used.toNat = words.length * 32) (full : v.m_used.toNat + 32 = 2 ^ W) : v.extract NIX_BPW = none := by
  have large := room_le width
  have bpw := bpw_toNat width
  have zero : (0 : Nix W).toNat = 0 := BitVec.toNat_zero
  have wraps : v.m_used + NIX_BPW = 0 := by
    refine BitVec.eq_of_toNat_eq ?_
    rw [BitVec.toNat_add, bpw, full, Nat.mod_self, zero]
  have available : ¬ v.m_alth < v.m_used + NIX_BPW := by
    rw [wraps, BitVec.lt_def, zero]
    exact Nat.not_lt_zero _
  have bit := bit_toNat width v.m_used
  have fit : v.m_used - v.m_used / NIX_BPW * NIX_BPW + NIX_BPW ≤ NIX_BPW := by
    rw [BitVec.le_def, BitVec.toNat_add_of_lt (by rw [bit, bpw]; omega), bit, bpw, atEnd]
    omega
  have several : v.lth ≠ NIX_BPW := by
    intro same
    have count := held.count
    rw [same, bpw] at count
    omega
  have beyond : words.length ≤ (v.m_used / NIX_BPW).toNat := by
    rw [word_toNat width, atEnd, Nat.mul_div_cancel _ (by decide)]
  have nowhere : v.word (v.m_used / NIX_BPW) = none := by
    unfold NixVec.word
    rw [if_neg several, held.asArray many, Option.bind_some, List.getElem?_eq_none beyond]
  unfold extract
  dsimp only
  rw [if_neg available, if_pos fit, nowhere]
  rfl

/-- A value within one word has one bit where a long has 64 of them. -/
def Thin (pos : ℕ) (p : Nix W × Nix W) : Prop := W = 64 → pos % 32 + p.2.toNat ≤ 32 → p.1.toNat < 2

theorem got_eq (width : W = 32 ∨ W = 64) (field : Field p) : got pos p = p.1 ↔ Thin pos p := by
  obtain ⟨positive, short, small⟩ := field
  unfold got Thin
  split_ifs with inside
  · have narrow : p.1.toNat % 2 ^ seen W p.2.toNat < 2 ^ W := (Nat.mod_le _ _).trans_lt p.1.isLt
    have bits : BitVec.ofNat W (p.1.toNat % 2 ^ seen W p.2.toNat) = p.1 ↔ p.1.toNat < 2 ^ seen W p.2.toNat := by
      constructor
      · intro same
        have number := congrArg BitVec.toNat same
        rw [BitVec.toNat_ofNat, Nat.mod_eq_of_lt narrow] at number
        rw [← number]
        exact Nat.mod_lt _ (Nat.two_pow_pos _)
      · intro less
        rw [Nat.mod_eq_of_lt less, BitVec.ofNat_toNat, BitVec.setWidth_eq]
    rw [bits]
    rcases width with rfl | rfl
    · exact iff_of_true small fun other => absurd other (by decide)
    · exact ⟨fun less _ _ => less, fun thin => thin rfl inside⟩
  · exact iff_of_true rfl fun _ other => absurd other inside

theorem gots_eq (width : W = 32 ∨ W = 64) (valid : ∀ p ∈ fields, Field p) :
    gots pos fields = fields.map Prod.fst ↔
      ∀ before p after, fields = before ++ p :: after → Thin (pos + total before) p := by
  induction fields generalizing pos with
  | nil => exact iff_of_true rfl fun before p after none => absurd none (by simp)
  | cons q qs ih =>
    obtain ⟨first, valid⟩ := List.forall_mem_cons.mp valid
    rw [gots, List.map_cons, List.cons_eq_cons, got_eq width first, ih valid]
    constructor
    · rintro ⟨thin, others⟩ before p after split
      cases before with
      | nil =>
        cases split
        exact thin
      | cons _ before =>
        cases split
        have later := others before p after rfl
        rwa [Nat.add_assoc] at later
    · intro all
      refine ⟨all [] q qs rfl, fun before p after split => ?_⟩
      have later := all (q :: before) p after (congrArg (q :: ·) split)
      rwa [total_cons, ← Nat.add_assoc] at later

/-- The values come out as they went in exactly if the counters have the room and, where a long has 64 bits,
every field within one word is zero or one. -/
theorem roundTrip_iff (width : W = 32 ∨ W = 64) (valid : ∀ p ∈ fields, Field p) :
    RoundTrip fields ↔ total fields + 32 < 2 ^ W ∧
      ∀ before p after, fields = before ++ p :: after → Thin (total before) p := by
  have large := room_le width
  rcases Nat.lt_or_ge (2 ^ W) (total fields + 32) with beyond | room
  · refine iff_of_false ?_ fun both => absurd both.1 (by omega)
    rintro ⟨v, added, _⟩
    have nothing := (make_packed width).adds_overrun width valid (by rw [total_nil]; omega)
    rw [nothing] at added
    exact absurd added nofun
  · obtain ⟨v, front, last, added, packed⟩ := (make_packed width).adds width valid (by rw [total_nil]; omega)
    rw [List.nil_append] at packed
    have none : (0 : Nix W).toNat = 0 := BitVec.toNat_zero
    have alth : v.m_alth.toNat = total fields := packed.alth ▸ packed.used
    have start : v.reset.m_used.toNat = 0 := none
    have reads := fun n : Nix W => extracts_laid (v := v.reset) width ⟨packed.held.kept, packed.held.count⟩ valid
      (by rw [start]; exact packed.laid) (by rw [start, Nat.zero_add]; exact alth.ge) n
    rw [start] at reads
    have values : gots 0 fields = fields.map Prod.fst ↔
        ∀ before p after, fields = before ++ p :: after → Thin (0 + total before) p := gots_eq width valid
    simp only [Nat.zero_add] at values reads
    rcases Nat.lt_or_ge (total fields + 32) (2 ^ W) with below | full
    · have ends : ∀ n : Nix W, 1 ≤ n.toNat → n.toNat ≤ 32 →
          v.reset.extracts (fields.map Prod.snd ++ [n]) = some (gots 0 fields ++ [NIX_NONE]) := by
        intro n positive short
        obtain ⟨used, atEnd, read⟩ := reads n
        have nothing : v.m_alth < used + n := by
          rw [BitVec.lt_def, BitVec.toNat_add_of_lt (by rw [atEnd]; omega), atEnd, alth]
          omega
        have beyond : NixVec.extract { v.reset with m_used := used } n = some (NIX_NONE, { v.reset with m_used := used }) := by
          unfold extract
          exact if_pos nothing
        rw [read, beyond]
        rfl
      have one : (1 : Nix W).toNat = 1 := by rcases width with rfl | rfl <;> rfl
      rw [← values]
      constructor
      · rintro ⟨v', added', same⟩
        cases Option.some.inj (added.symm.trans added')
        have both := Option.some.inj ((ends 1 one.ge (by rw [one]; decide)).symm.trans (same 1 one.ge (by rw [one]; decide)))
        exact ⟨below, List.append_cancel_right both⟩
      · rintro ⟨_, same⟩
        exact ⟨v, added, fun n positive short => same ▸ ends n positive short⟩
    · refine iff_of_false ?_ fun both => absurd both.1 (by omega)
      rintro ⟨v', added', same⟩
      cases Option.some.inj (added.symm.trans added')
      obtain ⟨used, atEnd, read⟩ := reads NIX_BPW
      have high := packed.high
      have fits := packed.room
      have multiple : 2 ^ W % 32 = 0 := by rcases width with rfl | rfl <;> rfl
      have several : front ≠ [] := by
        intro empty
        rw [empty, List.length_nil] at high
        omega
      have overrun : NixVec.extract { v.reset with m_used := used } NIX_BPW = Option.none := by
        refine extract_overrun width ⟨packed.held.kept, packed.held.count⟩ (several_length several last) ?_ ?_
        · dsimp only
          rw [atEnd, List.length_append, List.length_singleton]
          omega
        · dsimp only
          rw [atEnd]
          omega
      have bpw := bpw_toNat width
      have last := same NIX_BPW (by rw [bpw]; decide) bpw.le
      rw [read, overrun] at last
      exact absurd last nofun

/-- The two fields lie in one word, and the third in two. -/
theorem roundTrip_sample : RoundTrip (W := 64) [(1, 2), (0, 10), (2 ^ 30 - 1, 30)] := by
  refine (roundTrip_iff (Or.inr rfl) ?_).mpr ⟨by decide, ?_⟩
  · simp only [List.forall_mem_cons, List.not_mem_nil, false_implies, implies_true, and_true]
    decide +kernel
  · intro before p after split
    rcases before with _ | ⟨_, _ | ⟨_, _ | ⟨_, before⟩⟩⟩
    · cases split
      exact fun _ _ => by decide
    · cases split
      exact fun _ _ => by decide
    · cases split
      exact fun _ inside => absurd inside (by decide)
    · simp at split

/-- A field of two bits loses the upper one where a long has 64. -/
theorem two_bits_lost : ¬ RoundTrip (W := 64) [(2, 2)] := by
  rintro ⟨v, added, same⟩
  have read := same 1 (by decide) (by decide)
  have one : (List.foldlM add make [((2 : Nix 64), (2 : Nix 64))]).bind (fun v => v.reset.extracts [2, 1]) = some [0, NIX_NONE] := by
    decide +kernel
  rw [added] at one
  exact absurd (Option.some.inj (read.symm.trans one)) (by decide)

end NixVec

end Ns2
