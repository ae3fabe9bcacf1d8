import Mathlib.Logic.Function.Basic
import Ns2.Dsr.MobiCache
import Ns2.Library.LoopErase

namespace Ns2

/-- A path with its array and its cursor. `path` is the memory that the array starts in, and `stray` the places outside of the
array that have been written. -/
structure Path where
  path : ℤ → Hop
  len : ℤ
  curIndex : ℤ
  pathOwner : Hop
  stray : List ℤ

/-- What a path fills in of a source route header, with its array. -/
structure HdrSr where
  addrs : ℤ → DsrId
  numAddrs : ℤ
  curAddr : ℤ
  stray : List ℤ

/-- `ID()`. -/
def Hop.default : Hop := ⟨⟨0, .none⟩, -1, .none, .none⟩

/-- The place is in an array of `MAX_SR_LEN` elements. -/
def InArray (i : ℤ) : Prop := 0 ≤ i ∧ i < maxSrLen

instance (i : ℤ) : Decidable (InArray i) := inferInstanceAs (Decidable (_ ∧ _))

/-- The places outside of the array after one more has been written. -/
def strayed (i : ℤ) (stray : List ℤ) : List ℤ := if InArray i then stray else i :: stray

namespace Path

def make : Path := ⟨fun _ => .default, 0, 0, .default, []⟩

/-- `path[i] = id`. -/
def write (p : Path) (i : ℤ) (id : Hop) : Path := { p with path := Function.update p.path i id, stray := strayed i p.stray }

/-- The hops of the path. -/
def hops (p : Path) : DsrPath := (List.range p.len.toNat).map fun i : ℕ => p.path i

def resetIterator (p : Path) : Path := { p with curIndex := 0 }

def reset (p : Path) : Path := { p with len := 0, curIndex := 0 }

def next (p : Path) : Option Path := asserting (p.curIndex < p.len) (some { p with curIndex := p.curIndex + 1 })

def setIterator (p : Path) (i : ℤ) : Option Path := asserting (i ≥ 0 ∧ i < p.len) (some { p with curIndex := i })

def setLength (p : Path) (l : ℤ) : Option Path := asserting (l ≥ 0 ∧ l ≤ maxSrLen) (some { p with len := l })

def appendToPath (p : Path) (id : Hop) : Option Path :=
  asserting (p.len < maxSrLen) (some { p.write p.len id with len := p.len + 1 })

/-- `path[to + k] = path[from + k]` for as many `k`, one after the other. -/
def moveDown (src dst : ℤ) : ℕ → Path → Path
  | 0, p => p
  | n + 1, p => moveDown (src + 1) (dst + 1) n (p.write dst (p.path src))

/-- `path[t + k] = rhs[f + k]` for as many `k`, where the other path stays as it is. -/
def copyFrom (rhs : ℤ → Hop) (src dst : ℤ) : ℕ → Path → Path
  | 0, p => p
  | n + 1, p => copyFrom rhs (src + 1) (dst + 1) n (p.write dst (rhs src))

def removeSection (p : Path) (start stop : ℤ) : Path :=
  if stop ≤ start then p
  else
    let p := if p.curIndex > start then { p with curIndex := p.curIndex - (stop - start) } else p
    { moveDown stop start (p.len - stop).toNat p with len := start + max 0 (p.len - stop) }

def assign (p rhs : Path) : Path :=
  copyFrom rhs.path 0 0 rhs.len.toNat { p with curIndex := rhs.curIndex, pathOwner := rhs.pathOwner, len := rhs.len }

/-- The loop of `reverse`. -/
def reverseFrom (old : ℤ → Hop) (src dst : ℤ) : ℕ → Path → Path
  | 0, p => p
  | n + 1, p => reverseFrom old (src + 1) (dst - 1) n (p.write dst (old src))

/-- The path that `reverse` returns. -/
def reverse (p : Path) : Path :=
  if p.len = 0 then copyFrom p.path 0 0 p.len.toNat { make with len := p.len, curIndex := p.curIndex, pathOwner := p.pathOwner }
  else { reverseFrom p.path 0 (p.len - 1) p.len.toNat make with len := p.len, curIndex := p.len - 1 - p.curIndex }

/-- The loop of `reverseInPlace`. -/
def swapFrom : ℕ → ℤ → ℤ → Path → Path
  | 0, _, _, p => p
  | fuel + 1, fp, bp, p =>
    if fp < bp then swapFrom fuel (fp + 1) (bp - 1) ((p.write fp (p.path bp)).write bp (p.path fp)) else p

def reverseInPlace (p : Path) : Path :=
  if p.len = 0 then p else { swapFrom p.len.toNat 0 (p.len - 1) p with curIndex := p.len - 1 - p.curIndex }

/-- The inner loop of `compressPath`: the last place with the same id as the one at `fp`. -/
def scanBack (p : Path) (fp : ℤ) : ℕ → ℤ → Option ℤ
  | 0, _ => none
  | fuel + 1, bp =>
    if bp = fp then none
    else if (p.path fp).id = (p.path bp).id then some bp
    else scanBack p fp fuel (bp - 1)

/-- What `compressPath` does for one place. -/
def cutLoop (fp : ℤ) (p : Path) : Path :=
  match p.scanBack fp (p.len - fp).toNat (p.len - 1) with
  | some bp => { moveDown bp fp (p.len - bp).toNat p with len := fp + (p.len - bp) }
  | none => p

/-- The outer loop of `compressPath`; `none` if it has not come to its end. -/
def compressFrom : ℕ → ℤ → Path → Option Path
  | 0, _, _ => none
  | fuel + 1, fp, p => if fp < p.len then compressFrom fuel (fp + 1) (p.cutLoop fp) else some p

def compressPath (p : Path) : Option Path := compressFrom (p.len.toNat + 1) 0 p

/-- The owner that `CopyIntoPath` leaves: the first of the two owners that is found from the end on. -/
def newOwner (owner other : Hop) (path : ℤ → Hop) : ℕ → Hop
  | 0 => owner
  | n + 1 => if (path n).id = owner.id then owner else if (path n).id = other.id then other else newOwner owner other path n

def copyIntoPath (p source : Path) (start stop : ℤ) : Option Path :=
  asserting (start ≥ 0 ∧ stop < source.len) <|
    let copied := copyFrom source.path start 0 (stop - start + 1).toNat p
    let p := { copied with len := max p.len (stop - start + 1) }
    some { p with pathOwner := newOwner p.pathOwner source.pathOwner p.path p.len.toNat }

/-- The loop of `fillSR`. -/
def fillFrom (path : ℤ → Hop) (i : ℤ) : ℕ → HdrSr → HdrSr
  | 0, srh => srh
  | n + 1, srh =>
    fillFrom path (i + 1) n { srh with addrs := Function.update srh.addrs i (path i).id, stray := strayed i srh.stray }

def fillSR (p : Path) (srh : HdrSr) : HdrSr :=
  { fillFrom p.path 0 p.len.toNat srh with numAddrs := p.len, curAddr := p.curIndex }

end Path

open LoopErase

namespace Path

variable {p q : Path} {fp bp src dst i : ℤ} {n fuel : ℕ}

/-- A number of elements of the array, from a place on. -/
def slice (path : ℤ → Hop) (i : ℤ) (n : ℕ) : DsrPath := (List.range n).map fun k : ℕ => path (i + k)

theorem slice_zero (path : ℤ → Hop) (i : ℤ) : slice path i 0 = [] := rfl

theorem slice_add (path : ℤ → Hop) (i : ℤ) (m n : ℕ) : slice path i (m + n) = slice path i m ++ slice path (i + m) n := by
  unfold slice
  rw [List.range_add, List.map_append, List.map_map]
  refine congrArg (_ ++ ·) (List.map_congr_left fun k _ => ?_)
  exact congrArg path (by push_cast; omega)

theorem slice_succ (path : ℤ → Hop) (i : ℤ) (n : ℕ) : slice path i (n + 1) = path i :: slice path (i + 1) n := by
  rw [Nat.add_comm, slice_add]
  unfold slice
  simp

theorem slice_congr {path path' : ℤ → Hop} {i j : ℤ} (same : ∀ k : ℕ, k < n → path (i + k) = path' (j + k)) :
    slice path i n = slice path' j n :=
  List.map_congr_left fun k inside => same k (List.mem_range.mp inside)

theorem hops_eq (p : Path) : p.hops = slice p.path 0 p.len.toNat := by
  unfold hops slice
  simp

theorem mem_slice {path : ℤ → Hop} {hop : Hop} : hop ∈ slice path i n ↔ ∃ j, i ≤ j ∧ j < i + n ∧ path j = hop := by
  unfold slice
  rw [List.mem_map]
  constructor
  · rintro ⟨k, inside, rfl⟩
    have less := List.mem_range.mp inside
    exact ⟨i + k, by omega, by omega, rfl⟩
  · rintro ⟨j, low, high, rfl⟩
    exact ⟨(j - i).toNat, List.mem_range.mpr (by omega), congrArg path (by omega)⟩

theorem moveDown_path (below : dst ≤ src) (p : Path) (i : ℤ) :
    (moveDown src dst n p).path i = if dst ≤ i ∧ i < dst + n then p.path (src + (i - dst)) else p.path i := by
  induction n generalizing src dst p with
  | zero => rw [moveDown, if_neg (by omega)]
  | succ n ih =>
    rw [moveDown, ih (by omega)]
    have written (j : ℤ) : (p.write dst (p.path src)).path j = if j = dst then p.path src else p.path j := Function.update_apply ..
    rw [written, written]
    by_cases here : i = dst
    · rw [if_neg (by omega), if_pos here, if_pos (by omega), here, Int.sub_self, Int.add_zero]
    by_cases inside : dst ≤ i ∧ i < dst + (n + 1 : ℕ)
    · rw [if_pos inside, if_pos (by omega), if_neg (by omega)]
      exact congrArg p.path (by omega)
    · rw [if_neg inside, if_neg (by omega), if_neg here]

/-- The loop writes only elements of the array. -/
theorem moveDown_kept (src dst : ℤ) (n : ℕ) (p : Path) : (moveDown src dst n p).len = p.len ∧
    (moveDown src dst n p).curIndex = p.curIndex ∧ (0 ≤ dst → dst + n ≤ maxSrLen → (moveDown src dst n p).stray = p.stray) := by
  induction n generalizing src dst p with
  | zero => exact ⟨rfl, rfl, fun _ _ => rfl⟩
  | succ n ih =>
    obtain ⟨len, curIndex, stray⟩ := ih (src + 1) (dst + 1) (p.write dst (p.path src))
    refine ⟨len, curIndex, fun low high => (stray (by omega) (by omega)).trans ?_⟩
    exact if_pos ⟨low, by omega⟩

/-- The last place above `fp` that has the same id. -/
theorem scanBack_spec (p : Path) (fp bp : ℤ) (fuel : ℕ) (enough : bp < fp + fuel) (above : fp ≤ bp) : match p.scanBack fp fuel bp with
    | some b => fp < b ∧ b ≤ bp ∧ (p.path fp).id = (p.path b).id ∧ ∀ j, b < j → j ≤ bp → (p.path fp).id ≠ (p.path j).id
    | none => ∀ j, fp < j → j ≤ bp → (p.path fp).id ≠ (p.path j).id := by
  induction fuel generalizing bp with
  | zero => omega
  | succ fuel ih =>
    rw [scanBack]
    by_cases ended : bp = fp
    · rw [if_pos ended]
      exact fun j low high => by omega
    rw [if_neg ended]
    by_cases same : (p.path fp).id = (p.path bp).id
    · rw [if_pos same]
      exact ⟨by omega, le_rfl, same, fun j low high => by omega⟩
    rw [if_neg same]
    have onward := ih (bp - 1) (by omega) (by omega)
    have grow (j : ℤ) (high : j ≤ bp) (other : j ≤ bp - 1 → (p.path fp).id ≠ (p.path j).id) : (p.path fp).id ≠ (p.path j).id := by
      by_cases last : j = bp
      · rwa [last]
      · exact other (by omega)
    cases found : p.scanBack fp fuel (bp - 1) with
    | none =>
      rw [found] at onward
      exact fun j low high => grow j high (onward j low)
    | some b =>
      rw [found] at onward
      obtain ⟨low, high, equal, later⟩ := onward
      exact ⟨low, by omega, equal, fun j low high => grow j high (later j low)⟩

/-- What is left from `fp` on after one round. -/
structure Cut (fp : ℤ) (p q : Path) : Prop where
  low : fp < q.len
  high : q.len ≤ p.len
  before : ∀ i < fp, q.path i = p.path i
  erased : loopErase Hop.id (slice p.path fp (p.len - fp).toNat) =
    q.path fp :: loopErase Hop.id (slice q.path (fp + 1) (q.len - (fp + 1)).toNat)

theorem id_not_mem {path : ℤ → Hop} {id : DsrId} (other : ∀ j, i ≤ j → j < i + n → id ≠ (path j).id) :
    id ∉ (slice path i n).map Hop.id := by
  intro member
  obtain ⟨hop, inside, same⟩ := List.mem_map.mp member
  obtain ⟨j, low, high, rfl⟩ := mem_slice.mp inside
  exact other j low high same.symm

theorem cutLoop_cut (inside : fp < p.len) : Cut fp p (p.cutLoop fp) := by
  have scanned := scanBack_spec p fp (p.len - 1) (p.len - fp).toNat (by omega) (by omega)
  unfold cutLoop
  cases found : p.scanBack fp (p.len - fp).toNat (p.len - 1) with
  | none =>
    rw [found] at scanned
    dsimp only at scanned ⊢
    refine ⟨inside, le_rfl, fun _ _ => rfl, ?_⟩
    have new : (p.path fp).id ∉ (slice p.path (fp + 1) (p.len - (fp + 1)).toNat).map Hop.id :=
      id_not_mem fun j low high => scanned j (by omega) (by omega)
    rw [show (p.len - fp).toNat = (p.len - (fp + 1)).toNat + 1 by omega, slice_succ]
    exact loopErase_eq [] (fun x first => by cases Option.some.inj first; rfl) new
  | some b =>
    rw [found] at scanned
    dsimp only at scanned ⊢
    obtain ⟨low, high, same, later⟩ := scanned
    have moved (j : ℤ) (above : fp ≤ j) (below : j < fp + (p.len - b)) :
        (moveDown b fp (p.len - b).toNat p).path j = p.path (b + (j - fp)) := by
      rw [moveDown_path low.le, if_pos (by omega)]
    have first : (moveDown b fp (p.len - b).toNat p).path fp = p.path b := by
      rw [moved fp le_rfl (by omega), Int.sub_self, Int.add_zero]
    have rest : slice (moveDown b fp (p.len - b).toNat p).path (fp + 1) (fp + (p.len - b) - (fp + 1)).toNat =
        slice p.path (b + 1) (fp + (p.len - b) - (fp + 1)).toNat :=
      slice_congr fun k less => (moved _ (by omega) (by omega)).trans (congrArg p.path (by omega))
    refine ⟨by dsimp only; omega, by dsimp only; omega, fun i less => ?_, ?_⟩
    · exact (moveDown_path low.le p i).trans (if_neg (by omega))
    dsimp only
    rw [first, rest]
    have split : slice p.path fp (p.len - fp).toNat = slice p.path fp (b - fp).toNat ++
        p.path b :: slice p.path (b + 1) (fp + (p.len - b) - (fp + 1)).toNat := by
      rw [← slice_succ, show (p.len - fp).toNat = (b - fp).toNat + ((fp + (p.len - b) - (fp + 1)).toNat + 1) by omega, slice_add]
      exact congrArg (_ ++ slice p.path · _) (by omega)
    rw [split]
    refine loopErase_eq _ (fun x start => ?_) (id_not_mem fun j above below => ?_)
    · rw [← split, show (p.len - fp).toNat = (p.len - (fp + 1)).toNat + 1 by omega, slice_succ] at start
      cases Option.some.inj start
      exact same
    · rw [← same]
      exact later j (by omega) (by omega)

/-- From anywhere in the path on, the loops of the rest are cut out. -/
theorem compressFrom_hops (start : 0 ≤ fp) (inside : fp ≤ p.len) (enough : p.len - fp < fuel) :
    ∃ q, compressFrom fuel fp p = some q ∧ 0 ≤ q.len ∧ q.len ≤ p.len ∧
      q.hops = slice p.path 0 fp.toNat ++ loopErase Hop.id (slice p.path fp (p.len - fp).toNat) := by
  induction fuel generalizing fp p with
  | zero => omega
  | succ fuel ih =>
    rw [compressFrom]
    by_cases more : fp < p.len
    · rw [if_pos more]
      have cut := cutLoop_cut more
      have low := cut.low
      have high := cut.high
      obtain ⟨q, done, positive, less, hops⟩ : ∃ q, compressFrom fuel (fp + 1) (p.cutLoop fp) = some q ∧ _ :=
        ih (by omega) (by omega) (by omega)
      refine ⟨q, done, positive, less.trans high, ?_⟩
      have front : slice (p.cutLoop fp).path 0 (fp + 1).toNat = slice p.path 0 fp.toNat ++ [(p.cutLoop fp).path fp] := by
        rw [show (fp + 1).toNat = fp.toNat + 1 by omega, slice_add, slice_succ, slice_zero, Int.zero_add, Int.toNat_of_nonneg start]
        exact congrArg (· ++ _) (slice_congr fun k less => cut.before _ (by omega))
      rw [hops, front, List.append_assoc, List.singleton_append, ← cut.erased]
    · rw [if_neg more]
      have ended : fp = p.len := by omega
      subst ended
      refine ⟨p, rfl, start, le_rfl, ?_⟩
      rw [Int.sub_self, Int.toNat_zero, slice_zero, loopErase_nil, List.append_nil, hops_eq]

theorem compressPath_hops (p : Path) : ∃ q, p.compressPath = some q ∧ q.hops = loopErase Hop.id p.hops := by
  by_cases positive : 0 ≤ p.len
  · obtain ⟨q, done, _, _, hops⟩ : ∃ q, compressFrom (p.len.toNat + 1) 0 p = some q ∧ _ := compressFrom_hops le_rfl positive (by omega)
    refine ⟨q, done, hops.trans ?_⟩
    rw [Int.toNat_zero, slice_zero, List.nil_append, Int.sub_zero, hops_eq]
  · refine ⟨p, if_neg (by omega), ?_⟩
    rw [hops_eq, Int.toNat_of_nonpos (by omega), slice_zero, loopErase_nil]

/-- In a path without repeated ids no place has the id of another. -/
theorem place_unique {i j : ℤ} (once : (ids p.hops).Nodup) (low : 0 ≤ i) (less : i < j) (high : j < p.len) : (p.path i).id ≠ (p.path j).id := by
  intro same
  rw [ids, hops, List.map_map] at once
  have equal : i.toNat = j.toNat := List.inj_on_of_nodup_map once (List.mem_range.mpr (by omega)) (List.mem_range.mpr (by omega)) (by
    show (p.path i.toNat).id = (p.path j.toNat).id
    rw [Int.toNat_of_nonneg low, Int.toNat_of_nonneg (by omega), same])
  omega

theorem compressFrom_same (once : (ids p.hops).Nodup) (start : 0 ≤ fp) (enough : p.len - fp < fuel) (more : 0 < fuel) :
    compressFrom fuel fp p = some p := by
  induction fuel generalizing fp with
  | zero => exact absurd more (lt_irrefl 0)
  | succ fuel ih =>
    rw [compressFrom]
    by_cases inside : fp < p.len
    · have kept : p.cutLoop fp = p := by
        have scanned := scanBack_spec p fp (p.len - 1) (p.len - fp).toNat (by omega) (by omega)
        unfold cutLoop
        cases found : p.scanBack fp (p.len - fp).toNat (p.len - 1) with
        | none => rfl
        | some b =>
          rw [found] at scanned
          obtain ⟨low, high, same, _⟩ := scanned
          exact absurd same (place_unique once start low (by omega))
      rw [if_pos inside, kept]
      exact ih (by omega) (by omega) (by omega)
    · exact if_neg inside

/-- What `compressPath` is to leave of a path. -/
structure Compressed (p q : Path) : Prop where
  once : (ids q.hops).Nodup
  first : (ids q.hops).head? = (ids p.hops).head?
  last : (ids q.hops).getLast? = (ids p.hops).getLast?
  part : q.hops.Sublist p.hops
  /-- Every link of it is a link of the path. -/
  links : ∀ a b, [a, b] <:+: ids q.hops → [a, b] <:+: ids p.hops
  same : (ids p.hops).Nodup → q = p

/-- `compressPath` comes to its end, and leaves the path without its loops. -/
theorem compressPath_compressed (p : Path) : ∃ q, p.compressPath = some q ∧ Compressed p q := by
  obtain ⟨q, done, hops⟩ := compressPath_hops p
  refine ⟨q, done, ?_⟩
  constructor
  · rw [hops]
    exact loopErase_nodup p.hops
  · rw [hops]
    exact loopErase_head p.hops
  · rw [hops, ids, ids, List.getLast?_map, List.getLast?_map, loopErase_getLast]
  · rw [hops]
    exact loopErase_sublist p.hops
  · intro a b link
    rw [hops] at link
    exact loopErase_infix p.hops a b link
  · intro once
    have same : compressFrom (p.len.toNat + 1) 0 p = some p := compressFrom_same once le_rfl (by omega) (Nat.succ_pos _)
    exact Option.some.inj (done.symm.trans same)

end Path

end Ns2
