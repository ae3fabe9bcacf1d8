import Ns2.Dsr.Path

namespace Ns2

open LoopErase

/-- The paths of a program, and the source route header that one of them is put into. -/
structure PathStore where
  paths : ℕ → Path
  srh : HdrSr

inductive PathCall
  | appendToPath (i : ℕ) (id : Hop)
  | appendPath (i j : ℕ)
  | removeSection (i : ℕ) (start stop : ℤ)
  | setIterator (i : ℕ) (k : ℤ)
  | resetIterator (i : ℕ)
  | next (i : ℕ)
  | setLength (i : ℕ) (l : ℤ)
  | reset (i : ℕ)
  /-- The path that `i` is reversed to is taken for `j`. -/
  | reverse (i j : ℕ)
  | reverseInPlace (i : ℕ)
  | compressPath (i : ℕ)
  | copyIntoPath (i j : ℕ) (start stop : ℤ)
  /-- `i = j` -/
  | assign (i j : ℕ)
  | fillSR (i : ℕ)

namespace PathStore

def initial : PathStore := ⟨fun _ => .make, ⟨fun _ => ⟨0, .none⟩, 0, 0, []⟩⟩

def set (s : PathStore) (i : ℕ) (p : Path) : PathStore := { s with paths := Function.update s.paths i p }

/-- The loop of `appendPath`, which reads the other path as it is at that time. -/
def appendFrom (i j : ℕ) : ℕ → ℕ → PathStore → PathStore
  | 0, _, s => s
  | fuel + 1, k, s =>
    if k < (s.paths j).len then
      let p := (s.paths i).write (s.paths i).len ((s.paths j).path k)
      -- the bound is checked once the element has been written
      if p.len + 1 > maxSrLen then s.set i p else appendFrom i j fuel (k + 1) (s.set i { p with len := p.len + 1 })
    else s

def appendPath (i j : ℕ) (s : PathStore) : PathStore := appendFrom i j (maxSrLen + 1 - (s.paths i).len).toNat 0 s

def call (s : PathStore) : PathCall → Option PathStore
  | .appendToPath i id => ((s.paths i).appendToPath id).map (s.set i)
  | .appendPath i j => some (s.appendPath i j)
  | .removeSection i start stop => some (s.set i ((s.paths i).removeSection start stop))
  | .setIterator i k => ((s.paths i).setIterator k).map (s.set i)
  | .resetIterator i => some (s.set i (s.paths i).resetIterator)
  | .next i => (s.paths i).next.map (s.set i)
  | .setLength i l => ((s.paths i).setLength l).map (s.set i)
  | .reset i => some (s.set i (s.paths i).reset)
  | .reverse i j => some (s.set j (s.paths i).reverse)
  | .reverseInPlace i => some (s.set i (s.paths i).reverseInPlace)
  | .compressPath i => (s.paths i).compressPath.map (s.set i)
  | .copyIntoPath i j start stop => ((s.paths i).copyIntoPath (s.paths j) start stop).map (s.set i)
  | .assign i j => some (if i = j then s else s.set i ((s.paths i).assign (s.paths j)))
  | .fillSR i => some { s with srh := (s.paths i).fillSR s.srh }

def machine : Machine PathStore PathCall Unit := ⟨fun s c => (s.call c).map fun t => (t, ())⟩

/-- `removeSection` is called for a section of the path. -/
def Admitted (s : PathStore) : PathCall → Prop
  | .removeSection i start stop => 0 ≤ start ∧ start ≤ stop ∧ stop ≤ (s.paths i).len
  | _ => True

instance (s : PathStore) (c : PathCall) : Decidable (s.Admitted c) := by
  cases c <;> unfold Admitted <;> infer_instance

/-- Where the calls do not break the invariants: no path is appended that does not fit, and the cursor is not left outside of what
`removeSection`, `setLength` and `compressPath` keep of the path. -/
def Fits (s : PathStore) : PathCall → Prop
  | .appendPath i j => if i = j then (s.paths i).len = 0 else (s.paths i).len + (s.paths j).len ≤ maxSrLen
  | .removeSection i start stop => start < stop → start < (s.paths i).curIndex → stop - start ≤ (s.paths i).curIndex + 1
  | .setLength i l => (s.paths i).curIndex ≤ l
  | .compressPath i => (s.paths i).curIndex ≤ (loopErase Hop.id (s.paths i).hops).length
  | _ => True

end PathStore

/-- The representation of a path: its length and its cursor are inside, and only elements of the array have been written. -/
structure Path.Represented (p : Path) : Prop where
  nonneg : 0 ≤ p.len
  bound : p.len ≤ maxSrLen
  low : -1 ≤ p.curIndex
  high : p.curIndex ≤ p.len
  inside : p.stray = []

structure PathStore.Represented (s : PathStore) : Prop where
  paths : ∀ i, (s.paths i).Represented
  srh : s.srh.stray = []

namespace Path

variable {p q rhs : Path} {src dst fp bp : ℤ} {n fuel : ℕ}

/-- Two paths with the same length and cursor, and the same places written outside of the array. -/
structure Alike (p q : Path) : Prop where
  len : q.len = p.len
  curIndex : q.curIndex = p.curIndex
  stray : q.stray = p.stray

theorem Alike.trans {r : Path} (first : Alike p q) (second : Alike q r) : Alike p r :=
  ⟨second.len.trans first.len, second.curIndex.trans first.curIndex, second.stray.trans first.stray⟩

theorem write_alike (inside : InArray dst) (p : Path) (id : Hop) : Alike p (p.write dst id) := ⟨rfl, rfl, if_pos inside⟩

theorem copyFrom_alike {old : ℤ → Hop} (low : 0 ≤ dst) (high : dst + n ≤ maxSrLen) (p : Path) : Alike p (copyFrom old src dst n p) := by
  induction n generalizing src dst p with
  | zero => exact ⟨rfl, rfl, rfl⟩
  | succ n ih => exact (write_alike ⟨low, by omega⟩ p _).trans (ih (by omega) (by omega) _)

theorem reverseFrom_alike {old : ℤ → Hop} (low : n ≤ dst + 1) (high : dst < maxSrLen) (p : Path) :
    Alike p (reverseFrom old src dst n p) := by
  induction n generalizing src dst p with
  | zero => exact ⟨rfl, rfl, rfl⟩
  | succ n ih => exact (write_alike ⟨by omega, high⟩ p _).trans (ih (by omega) (by omega) _)

theorem swapFrom_alike (low : 0 ≤ fp) (high : bp < maxSrLen) (p : Path) : Alike p (swapFrom fuel fp bp p) := by
  induction fuel generalizing fp bp p with
  | zero => exact ⟨rfl, rfl, rfl⟩
  | succ fuel ih =>
    rw [swapFrom]
    split
    · exact ((write_alike ⟨low, by omega⟩ p _).trans (write_alike ⟨by omega, high⟩ _ _)).trans (ih (by omega) (by omega) _)
    · exact ⟨rfl, rfl, rfl⟩

theorem moveDown_alike (low : 0 ≤ dst) (high : dst + n ≤ maxSrLen) (p : Path) : Alike p (moveDown src dst n p) := by
  obtain ⟨len, curIndex, stray⟩ := moveDown_kept src dst n p
  exact ⟨len, curIndex, stray low high⟩

theorem Represented.appendToPath {id : Hop} (rep : p.Represented) (done : p.appendToPath id = some q) : q.Represented := by
  have nonneg := rep.nonneg
  have high := rep.high
  obtain ⟨room, same⟩ := asserting_eq_some done
  cases same
  exact ⟨by dsimp only; omega, by dsimp only; omega, rep.low, high.trans (by dsimp only; omega), (if_pos ⟨nonneg, room⟩).trans rep.inside⟩

theorem Represented.removeSection_iff {start stop : ℤ} (rep : p.Represented) (low : 0 ≤ start) (ordered : start ≤ stop)
    (inside : stop ≤ p.len) :
    (p.removeSection start stop).Represented ↔ (start < stop → start < p.curIndex → stop - start ≤ p.curIndex + 1) := by
  have bound := rep.bound
  have high := rep.high
  have first := rep.low
  unfold removeSection
  by_cases empty : stop ≤ start
  · rw [if_pos empty]
    exact iff_of_true rep fun some => by omega
  rw [if_neg empty]
  generalize moved : (if p.curIndex > start then { p with curIndex := p.curIndex - (stop - start) } else p : Path) = r
  have cursor : r.curIndex = if p.curIndex > start then p.curIndex - (stop - start) else p.curIndex := by
    subst moved
    split <;> rfl
  obtain ⟨len, stray⟩ : r.len = p.len ∧ r.stray = p.stray := by
    subst moved
    split <;> exact ⟨rfl, rfl⟩
  have alike : Alike r (moveDown stop start (r.len - stop).toNat r) := moveDown_alike low (by omega) r
  constructor
  · rintro ⟨_, _, low', _, _⟩ some beyond
    have kept : (moveDown stop start (r.len - stop).toNat r).curIndex = _ := alike.curIndex.trans cursor
    dsimp only at low'
    rw [kept, if_pos beyond] at low'
    omega
  · intro fits
    refine ⟨?_, ?_, ?_, ?_, (alike.stray.trans stray).trans rep.inside⟩
    · dsimp only
      omega
    · dsimp only
      omega
    · dsimp only
      rw [alike.curIndex, cursor]
      split
      · have room := fits (by omega) (by omega)
        omega
      · exact first
    · dsimp only
      rw [alike.curIndex, cursor]
      split <;> omega

theorem Represented.reverseInPlace (rep : p.Represented) : p.reverseInPlace.Represented := by
  have nonneg := rep.nonneg
  have bound := rep.bound
  have low := rep.low
  have high := rep.high
  unfold Path.reverseInPlace
  by_cases empty : p.len = 0
  · rwa [if_pos empty]
  rw [if_neg empty]
  have alike : Alike p (swapFrom p.len.toNat 0 (p.len - 1) p) := swapFrom_alike le_rfl (by omega) p
  refine ⟨?_, ?_, by dsimp only; omega, ?_, alike.stray.trans rep.inside⟩
  · exact alike.len.symm ▸ nonneg
  · exact alike.len.symm ▸ bound
  · dsimp only
    rw [alike.len]
    omega

theorem Represented.reverse (rep : p.Represented) : p.reverse.Represented := by
  have nonneg := rep.nonneg
  have bound := rep.bound
  have low := rep.low
  have high := rep.high
  unfold Path.reverse
  by_cases empty : p.len = 0
  · rw [if_pos empty]
    obtain ⟨len, curIndex, stray⟩ : Alike { make with len := p.len, curIndex := p.curIndex, pathOwner := p.pathOwner }
      (copyFrom p.path 0 0 p.len.toNat { make with len := p.len, curIndex := p.curIndex, pathOwner := p.pathOwner }) :=
        copyFrom_alike le_rfl (by omega) _
    exact ⟨len.symm ▸ nonneg, len.symm ▸ bound, curIndex.symm ▸ low, by rw [curIndex, len]; exact high, stray⟩
  rw [if_neg empty]
  have alike : Alike make (reverseFrom p.path 0 (p.len - 1) p.len.toNat make) := reverseFrom_alike (by omega) (by omega) make
  exact ⟨nonneg, bound, by dsimp only; omega, by dsimp only; omega, alike.stray⟩

theorem Represented.assign (rep : p.Represented) (other : rhs.Represented) : (p.assign rhs).Represented := by
  have nonneg := other.nonneg
  have bound := other.bound
  obtain ⟨len, curIndex, stray⟩ : Alike { p with curIndex := rhs.curIndex, pathOwner := rhs.pathOwner, len := rhs.len } (p.assign rhs) :=
    copyFrom_alike le_rfl (by omega) _
  exact ⟨len.symm ▸ nonneg, len.symm ▸ bound, curIndex.symm ▸ other.low, by rw [curIndex, len]; exact other.high,
    stray.trans rep.inside⟩

theorem Represented.copyIntoPath {start stop : ℤ} (rep : p.Represented) (other : rhs.Represented)
    (done : p.copyIntoPath rhs start stop = some q) : q.Represented := by
  have bound := rep.bound
  have high := rep.high
  have limit := other.bound
  have nonneg := rep.nonneg
  obtain ⟨⟨low, inside⟩, same⟩ := asserting_eq_some done
  cases same
  obtain ⟨_, curIndex, stray⟩ : Alike p (copyFrom rhs.path start 0 (stop - start + 1).toNat p) := copyFrom_alike le_rfl (by omega) p
  exact ⟨by dsimp only; omega, by dsimp only; omega, curIndex.symm ▸ rep.low, by dsimp only; rw [curIndex]; omega, stray.trans rep.inside⟩

theorem Represented.setLength_iff {l : ℤ} (rep : p.Represented) (done : p.setLength l = some q) : q.Represented ↔ p.curIndex ≤ l := by
  obtain ⟨⟨low, bound⟩, same⟩ := asserting_eq_some done
  cases same
  exact ⟨fun after => after.high, fun fits => ⟨low, bound, rep.low, fits, rep.inside⟩⟩

theorem cutLoop_alike (start : 0 ≤ fp) (bound : p.len ≤ maxSrLen) : (p.cutLoop fp).curIndex = p.curIndex ∧ (p.cutLoop fp).stray = p.stray := by
  by_cases inside : fp < p.len
  · have scanned := scanBack_spec p fp (p.len - 1) (p.len - fp).toNat (by omega) (by omega)
    unfold cutLoop
    cases found : p.scanBack fp (p.len - fp).toNat (p.len - 1) with
    | none => exact ⟨rfl, rfl⟩
    | some b =>
      rw [found] at scanned
      obtain ⟨low, high, _⟩ := scanned
      obtain ⟨_, curIndex, stray⟩ : Alike p (moveDown b fp (p.len - b).toNat p) := moveDown_alike start (by omega) p
      exact ⟨curIndex, stray⟩
  · unfold cutLoop
    rw [show (p.len - fp).toNat = 0 by omega, scanBack]
    exact ⟨rfl, rfl⟩

theorem compressFrom_alike (start : 0 ≤ fp) (bound : p.len ≤ maxSrLen) (done : compressFrom fuel fp p = some q) :
    q.curIndex = p.curIndex ∧ q.stray = p.stray := by
  induction fuel generalizing fp p with
  | zero => cases done
  | succ fuel ih =>
    rw [compressFrom] at done
    by_cases inside : fp < p.len
    · rw [if_pos inside] at done
      obtain ⟨curIndex, stray⟩ := cutLoop_alike start bound
      obtain ⟨curIndex', stray'⟩ := ih (by omega) ((cutLoop_cut inside).high.trans bound) done
      exact ⟨curIndex'.trans curIndex, stray'.trans stray⟩
    · rw [if_neg inside] at done
      cases done
      exact ⟨rfl, rfl⟩

theorem Represented.compressPath_iff (rep : p.Represented) (done : p.compressPath = some q) :
    q.Represented ↔ p.curIndex ≤ (loopErase Hop.id p.hops).length := by
  have bound := rep.bound
  obtain ⟨curIndex, stray⟩ := compressFrom_alike le_rfl rep.bound done
  obtain ⟨r, done', positive, less, _⟩ : ∃ r, compressFrom (p.len.toNat + 1) 0 p = some r ∧ _ :=
    compressFrom_hops le_rfl rep.nonneg (by have nonneg := rep.nonneg; omega)
  obtain ⟨r', done'', hops⟩ := compressPath_hops p
  cases Option.some.inj (done.symm.trans done')
  cases Option.some.inj (done.symm.trans done'')
  have length : (loopErase Hop.id p.hops).length = q.len.toNat := by
    rw [← hops, Path.hops, List.length_map, List.length_range]
  rw [length, ← curIndex]
  constructor
  · intro after
    have high := after.high
    omega
  · intro fits
    exact ⟨positive, by omega, curIndex ▸ rep.low, by omega, stray.trans rep.inside⟩

theorem fillFrom_stray {path : ℤ → Hop} {i : ℤ} (low : 0 ≤ i) (high : i + n ≤ maxSrLen) (srh : HdrSr) :
    (fillFrom path i n srh).stray = srh.stray := by
  induction n generalizing i srh with
  | zero => rfl
  | succ n ih => exact (ih (by omega) (by omega) _).trans (if_pos ⟨low, by omega⟩)

end Path

namespace PathStore

variable {s t : PathStore} {i j k fuel : ℕ} {p q : Path} {c : PathCall}

theorem set_self (s : PathStore) (i : ℕ) (p : Path) : (s.set i p).paths i = p := Function.update_self ..

theorem set_other (s : PathStore) (p : Path) (other : j ≠ i) : (s.set i p).paths j = s.paths j := Function.update_of_ne other ..

theorem Represented.set_iff (rep : s.Represented) : (s.set i p).Represented ↔ p.Represented := by
  constructor
  · intro after
    have here := after.paths i
    rwa [set_self] at here
  · intro new
    refine ⟨fun l => ?_, rep.srh⟩
    by_cases here : l = i
    · subst here
      rwa [set_self]
    · rw [set_other s p here]
      exact rep.paths l

/-- The rest of the other path, from `k` on, fits into the array. A path that is appended to itself grows as it is read. -/
def RestFits (i j k : ℕ) (s : PathStore) : Prop :=
  k < (s.paths j).len → i ≠ j ∧ (s.paths i).len + ((s.paths j).len - k) ≤ maxSrLen

/-- What the loop of `appendPath` leaves. -/
structure Appended (i j k : ℕ) (s t : PathStore) : Prop where
  others : ∀ l, l ≠ i → t.paths l = s.paths l
  srh : t.srh = s.srh
  curIndex : (t.paths i).curIndex = (s.paths i).curIndex
  bound : (t.paths i).len ≤ maxSrLen
  grown : (s.paths i).len ≤ (t.paths i).len
  stray : (t.paths i).stray = (s.paths i).stray ↔ RestFits i j k s

theorem appendFrom_appended (nonneg : 0 ≤ (s.paths i).len) (bound : (s.paths i).len ≤ maxSrLen)
    (enough : maxSrLen + 1 - (s.paths i).len ≤ fuel) : Appended i j k s (appendFrom i j fuel k s) := by
  induction fuel generalizing s k with
  | zero => omega
  | succ fuel ih =>
    rw [appendFrom]
    by_cases more : k < (s.paths j).len
    · rw [if_pos more]
      generalize written : (s.paths i).write (s.paths i).len ((s.paths j).path k) = p
      obtain ⟨len, curIndex, stray⟩ : p.len = (s.paths i).len ∧ p.curIndex = (s.paths i).curIndex ∧
          p.stray = strayed (s.paths i).len (s.paths i).stray := by
        subst written
        exact ⟨rfl, rfl, rfl⟩
      dsimp only
      by_cases full : p.len + 1 > maxSrLen
      · rw [if_pos full]
        have outside : ¬InArray (s.paths i).len := fun inside => by
          have below := inside.2
          omega
        rw [strayed, if_neg outside] at stray
        refine ⟨fun l other => set_other s p other, rfl, ?_, ?_, ?_, ?_⟩
        · rw [set_self, curIndex]
        · rw [set_self, len]
          exact bound
        · rw [set_self, len]
        · rw [set_self, stray]
          refine iff_of_false (List.cons_ne_self _ _) fun fits => ?_
          have room := (fits more).2
          omega
      · rw [if_neg full]
        obtain ⟨q, made⟩ : ∃ q : Path, { p with len := p.len + 1 } = q := ⟨_, rfl⟩
        have longer : q.len = (s.paths i).len + 1 := by rw [← made, ← len]
        have cursor : q.curIndex = (s.paths i).curIndex := by rw [← made, ← curIndex]
        have kept : q.stray = (s.paths i).stray := by
          rw [← made]
          exact stray.trans (if_pos ⟨nonneg, by omega⟩)
        rw [made]
        have here : (s.set i q).paths i = q := set_self s i q
        have onward : Appended i j (k + 1) (s.set i q) (appendFrom i j fuel (k + 1) (s.set i q)) :=
          ih (by rw [here]; omega) (by rw [here]; omega) (by rw [here]; omega)
        refine ⟨fun l other => (onward.others l other).trans (set_other s q other), onward.srh, ?_, onward.bound, ?_, ?_⟩
        · rw [onward.curIndex, here, cursor]
        · have grown := onward.grown
          rw [here] at grown
          omega
        · have same := onward.stray
          rw [here, kept] at same
          rw [same]
          unfold RestFits
          by_cases same : j = i
          · subst same
            rw [here]
            exact ⟨fun fits _ => absurd rfl (fits (by omega)).1, fun fits _ => absurd rfl (fits more).1⟩
          · rw [set_other s q same, here]
            constructor
            · intro fits _
              by_cases last : (k + 1 : ℕ) < (s.paths j).len
              · have room := (fits last).2
                exact ⟨Ne.symm same, by omega⟩
              · exact ⟨Ne.symm same, by omega⟩
            · intro fits _
              have room := (fits more).2
              exact ⟨Ne.symm same, by omega⟩
    · rw [if_neg more]
      exact ⟨fun _ _ => rfl, rfl, rfl, bound, le_rfl, iff_of_true rfl fun less => absurd less more⟩

theorem Represented.appendPath_iff (rep : s.Represented) : (s.appendPath i j).Represented ↔ s.Fits (.appendPath i j) := by
  have path := rep.paths i
  have nonneg := path.nonneg
  have bound := path.bound
  have high := path.high
  have positive := (rep.paths j).nonneg
  have appended : Appended i j 0 s (s.appendPath i j) := appendFrom_appended nonneg bound (by omega)
  have fits : RestFits i j 0 s ↔ s.Fits (.appendPath i j) := by
    dsimp only [RestFits, Fits]
    by_cases same : i = j
    · subst same
      rw [if_pos rfl]
      exact ⟨fun rest => by by_contra some; exact (rest (by omega)).1 rfl, fun empty less => by omega⟩
    · rw [if_neg same]
      refine ⟨fun rest => ?_, fun room _ => ⟨same, by omega⟩⟩
      by_cases some : 0 < (s.paths j).len
      · have room := (rest (by omega)).2
        omega
      · omega
  rw [← fits, ← appended.stray]
  constructor
  · exact fun after => (after.paths i).inside.trans path.inside.symm
  · intro kept
    have grown := appended.grown
    refine ⟨fun l => ?_, appended.srh ▸ rep.srh⟩
    by_cases here : l = i
    · subst here
      exact ⟨by omega, appended.bound, appended.curIndex ▸ path.low, by rw [appended.curIndex]; omega, kept.trans path.inside⟩
    · rw [appended.others l here]
      exact rep.paths l

theorem call_set (routine : Option Path) (done : routine.map (s.set i) = some t) : ∃ q, routine = some q ∧ t = s.set i q := by
  obtain ⟨q, some, same⟩ := Option.map_eq_some_iff.mp done
  exact ⟨q, some, same.symm⟩

/-- A call keeps the representation of all paths exactly if it fits. -/
theorem Represented.call_iff (rep : s.Represented) (admitted : s.Admitted c) (done : s.call c = some t) : t.Represented ↔ s.Fits c := by
  cases c with
  | appendToPath i id =>
    obtain ⟨q, made, rfl⟩ := call_set ((s.paths i).appendToPath id) done
    exact rep.set_iff.trans (iff_of_true ((rep.paths i).appendToPath made) trivial)
  | appendPath i j =>
    cases Option.some.inj done
    exact rep.appendPath_iff
  | removeSection i start stop =>
    cases Option.some.inj done
    exact rep.set_iff.trans ((rep.paths i).removeSection_iff admitted.1 admitted.2.1 admitted.2.2)
  | setIterator i k =>
    obtain ⟨q, made, rfl⟩ := call_set ((s.paths i).setIterator k) done
    obtain ⟨inside, same⟩ := asserting_eq_some made
    cases same
    have path := rep.paths i
    exact rep.set_iff.trans (iff_of_true ⟨path.nonneg, path.bound, by dsimp only; omega, inside.2.le, path.inside⟩ trivial)
  | resetIterator i =>
    cases Option.some.inj done
    have path := rep.paths i
    exact rep.set_iff.trans (iff_of_true ⟨path.nonneg, path.bound, neg_one_lt_zero.le, path.nonneg, path.inside⟩ trivial)
  | next i =>
    obtain ⟨q, made, rfl⟩ := call_set (s.paths i).next done
    obtain ⟨inside, same⟩ := asserting_eq_some made
    cases same
    have path := rep.paths i
    have low := path.low
    exact rep.set_iff.trans (iff_of_true ⟨path.nonneg, path.bound, by dsimp only; omega, inside, path.inside⟩ trivial)
  | setLength i l =>
    obtain ⟨q, made, rfl⟩ := call_set ((s.paths i).setLength l) done
    exact rep.set_iff.trans ((rep.paths i).setLength_iff made)
  | reset i =>
    cases Option.some.inj done
    exact rep.set_iff.trans (iff_of_true ⟨le_rfl, Int.natCast_nonneg _, neg_one_lt_zero.le, le_rfl, (rep.paths i).inside⟩ trivial)
  | reverse i j =>
    cases Option.some.inj done
    exact rep.set_iff.trans (iff_of_true (rep.paths i).reverse trivial)
  | reverseInPlace i =>
    cases Option.some.inj done
    exact rep.set_iff.trans (iff_of_true (rep.paths i).reverseInPlace trivial)
  | compressPath i =>
    obtain ⟨q, made, rfl⟩ := call_set (s.paths i).compressPath done
    exact rep.set_iff.trans ((rep.paths i).compressPath_iff made)
  | copyIntoPath i j start stop =>
    obtain ⟨q, made, rfl⟩ := call_set ((s.paths i).copyIntoPath (s.paths j) start stop) done
    exact rep.set_iff.trans (iff_of_true ((rep.paths i).copyIntoPath (rep.paths j) made) trivial)
  | assign i j =>
    cases Option.some.inj done
    refine iff_of_true ?_ trivial
    split
    · exact rep
    · exact rep.set_iff.mpr ((rep.paths i).assign (rep.paths j))
  | fillSR i =>
    cases Option.some.inj done
    have path := rep.paths i
    have nonneg := path.nonneg
    have bound := path.bound
    exact iff_of_true ⟨rep.paths, (Path.fillFrom_stray le_rfl (by omega) s.srh).trans rep.srh⟩ trivial

theorem initial_represented : initial.Represented :=
  ⟨fun _ => ⟨le_rfl, Int.natCast_nonneg _, neg_one_lt_zero.le, le_rfl, rfl⟩, rfl⟩

/-- The invariants hold in every state of a run exactly if all its calls fit. -/
theorem represented_iff {calls : List PathCall} {last : PathStore} {outs : List Unit} (run : machine.run initial calls = some (last, outs))
    (admitted : machine.Along Admitted initial calls) :
    machine.Throughout PathStore.Represented initial calls ↔ machine.Along Fits initial calls := by
  refine Machine.throughout_iff_along_of_admitted (K := fun _ => True) (fun s c next out _ rep allowed taken => ⟨trivial, ?_⟩) run admitted
    trivial initial_represented
  obtain ⟨t, done, same⟩ := Option.map_eq_some_iff.mp taken
  cases same
  exact rep.call_iff allowed done

/-- A run with every kind of call. -/
theorem represented_iff_sample :
    machine.Throughout PathStore.Represented initial
        [.appendToPath 0 .default, .appendToPath 0 ⟨⟨1, .ip⟩, -1, .none, .none⟩, .appendPath 1 0, .next 1, .removeSection 1 0 1,
          .setLength 1 2, .compressPath 0, .copyIntoPath 2 0 0 1, .setIterator 2 1, .reverse 2 3, .reverseInPlace 3, .assign 1 3,
          .resetIterator 1, .fillSR 1, .reset 0] ↔
      machine.Along Fits initial
        [.appendToPath 0 .default, .appendToPath 0 ⟨⟨1, .ip⟩, -1, .none, .none⟩, .appendPath 1 0, .next 1, .removeSection 1 0 1,
          .setLength 1 2, .compressPath 0, .copyIntoPath 2 0 0 1, .setIterator 2 1, .reverse 2 3, .reverseInPlace 3, .assign 1 3,
          .resetIterator 1, .fillSR 1, .reset 0] :=
  represented_iff (Option.eq_some_of_isSome (by decide +kernel)) (by decide +kernel)

/-- A path of one hop is appended to one that fills the array: the element behind the array has been written. -/
theorem appended_behind_array : ∃ calls last outs, machine.run initial calls = some (last, outs) ∧ machine.Along Admitted initial calls ∧
    ¬machine.Throughout PathStore.Represented initial calls := by
  have ran : (machine.run initial (List.replicate 16 (.appendToPath 0 .default) ++ [.appendToPath 1 .default, .appendPath 0 1])).map
      (fun done => (done.1.paths 0).stray) = some [16] := by decide +kernel
  obtain ⟨⟨last, outs⟩, run, stray⟩ := Option.map_eq_some_iff.mp ran
  refine ⟨_, last, outs, run, by decide +kernel, fun kept => ?_⟩
  have inside := ((kept _ [] last outs (List.append_nil _).symm run).paths 0).inside
  dsimp only at stray
  rw [inside] at stray
  cases stray

end PathStore

end Ns2
