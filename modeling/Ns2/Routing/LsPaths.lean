import Mathlib.Algebra.Ring.Nat
import Ns2.Library.SortedMap
import Mathlib.Data.Fin.Basic
import Mathlib.Data.List.Nodup

namespace Ns2

abbrev U32 := Fin (2 ^ 32)

instance u32_ne_zero : NeZero (2 ^ 32) := ⟨by decide⟩

def LS_INVALID_NODE_ID : ℕ := 65535
def LS_INVALID_COST : ℕ := 65535
def LS_MAX_COST : ℕ := 65534

inductive LsStatus
  | down
  | up
deriving DecidableEq

structure LsLinkState where
  neighborId : ℕ
  status : LsStatus
  cost : ℕ
  sequenceNumber : U32
deriving DecidableEq

/-- The link state database. -/
abbrev LsTopoMap := SortedMap ℕ (List LsLinkState)

structure LsPath where
  destination : ℕ
  cost : ℕ
  nextHop : ℕ
deriving DecidableEq

namespace LsPath

/-- The path that is made without a destination. Its cost and its next hop are never read. -/
def invalid : LsPath := ⟨LS_INVALID_NODE_ID, 0, 0⟩

def isValid (path : LsPath) : Bool :=
  path.destination ≠ LS_INVALID_NODE_ID ∧ path.cost ≠ LS_INVALID_COST ∧ path.nextHop ≠ LS_INVALID_COST

end LsPath

structure LsEqualPaths where
  cost : ℕ
  nextHopList : List ℕ
deriving DecidableEq

/-- The numbers of `x` behind those of `l`, each once. -/
def appendUnique (l x : List ℕ) : List ℕ := x.foldl (fun l a => if a ∈ l then l else l ++ [a]) l

abbrev LsPaths := SortedMap ℕ LsEqualPaths

namespace LsPaths

def lookupCost (m : LsPaths) (destId : ℕ) : ℕ :=
  match m.find destId with
  | none => LS_MAX_COST + 1
  | some ep => ep.cost

def lookupNextHopList (m : LsPaths) (destId : ℕ) : Option (List ℕ) := (m.find destId).map LsEqualPaths.nextHopList

def insertPath (m : LsPaths) (path : LsPath) : LsPaths :=
  match m.find path.destination with
  | none => m.insert path.destination ⟨path.cost, [path.nextHop]⟩
  | some ep =>
    if ep.cost < path.cost then m
    else if path.cost < ep.cost then m.set path.destination ⟨path.cost, [path.nextHop]⟩
    else if path.nextHop ∈ ep.nextHopList then m
    else m.set path.destination { ep with nextHopList := ep.nextHopList ++ [path.nextHop] }

def insertNextHopList (m : LsPaths) (destId cost : ℕ) (nextHopList : List ℕ) : LsPaths :=
  match m.find destId with
  | none => m.insert destId ⟨cost, nextHopList⟩
  | some ep =>
    if ep.cost < cost then m
    else if cost < ep.cost then m.set destId ⟨cost, nextHopList⟩
    else m.set destId { ep with nextHopList := appendUnique ep.nextHopList nextHopList }

/-- One turn of the loop of `findMinEqualPaths`, with the least cost so far and its entry. -/
def findMin (best : ℕ × Option (ℕ × LsEqualPaths)) (e : ℕ × LsEqualPaths) : ℕ × Option (ℕ × LsEqualPaths) :=
  if e.2.cost < best.1 ∧ e.2.nextHopList ≠ [] then (e.2.cost, some e) else best

def findMinEqualPaths (m : LsPaths) : Option (ℕ × LsEqualPaths) := (m.entries.foldl findMin (LS_MAX_COST + 1, none)).2

def popShortestPath (m : LsPaths) : LsPaths × LsPath :=
  match m.findMinEqualPaths with
  | none => (m, LsPath.invalid)
  | some (destination, ep) =>
    match ep.nextHopList with
    -- the entry that was found has a next hop
    | [] => (m, LsPath.invalid)
    | nextHop :: rest =>
      (if rest = [] then m.erase destination else m.set destination { ep with nextHopList := rest }, ⟨destination, ep.cost, nextHop⟩)

end LsPaths

section Specs

variable {l x : List ℕ} {a j w cost : ℕ} {m : LsPaths} {path : LsPath} {ep : LsEqualPaths}

theorem appendUnique_cons (l x : List ℕ) (a : ℕ) : appendUnique l (a :: x) = appendUnique (if a ∈ l then l else l ++ [a]) x := rfl

theorem mem_appendUnique : a ∈ appendUnique l x ↔ a ∈ l ∨ a ∈ x := by
  induction x generalizing l with
  | nil => simp [appendUnique]
  | cons b x ih =>
    rw [appendUnique_cons, ih, List.mem_cons]
    split_ifs with known
    · refine ⟨Or.imp_right Or.inr, fun member => ?_⟩
      rcases member with old | rfl | new
      · exact Or.inl old
      · exact Or.inl known
      · exact Or.inr new
    · rw [List.mem_append, List.mem_singleton, or_assoc]

theorem appendUnique_nodup (distinct : l.Nodup) : (appendUnique l x).Nodup := by
  induction x generalizing l with
  | nil => exact distinct
  | cons b x ih =>
    rw [appendUnique_cons]
    split_ifs with known
    · exact ih distinct
    · exact ih (List.nodup_append_comm.mp (List.nodup_cons.mpr ⟨known, distinct⟩))

theorem appendUnique_length (l x : List ℕ) : (appendUnique l x).length ≤ l.length + x.length := by
  induction x generalizing l with
  | nil => exact le_rfl
  | cons b x ih =>
    rw [appendUnique_cons]
    have step := ih (if b ∈ l then l else l ++ [b])
    split_ifs at step ⊢ with known
    · simp only [List.length_cons]
      omega
    · simp only [List.length_cons, List.length_append, List.length_nil] at step ⊢
      omega

namespace LsPaths

def hops (m : LsPaths) (destId : ℕ) : List ℕ := (m.lookupNextHopList destId).getD []

theorem hops_some (found : m.find w = some ep) : m.hops w = ep.nextHopList := by
  rw [hops, lookupNextHopList, found]
  rfl

theorem lookupCost_some (found : m.find w = some ep) : m.lookupCost w = ep.cost := by rw [lookupCost, found]

theorem lookupCost_none (none : m.find w = none) : m.lookupCost w = LS_MAX_COST + 1 := by rw [lookupCost, none]

/-- The entry that `insertNextHopList` leaves. -/
def merge (old : Option LsEqualPaths) (cost : ℕ) (nextHopList : List ℕ) : LsEqualPaths :=
  match old with
  | none => ⟨cost, nextHopList⟩
  | some ep =>
    if ep.cost < cost then ep
    else if cost < ep.cost then ⟨cost, nextHopList⟩
    else { ep with nextHopList := appendUnique ep.nextHopList nextHopList }

theorem find_insertNextHopList (m : LsPaths) (destId cost : ℕ) (nextHopList : List ℕ) :
    (m.insertNextHopList destId cost nextHopList).find j =
      if j = destId then some (merge (m.find destId) cost nextHopList) else m.find j := by
  unfold insertNextHopList
  rcases Option.eq_none_or_eq_some (m.find destId) with none | ⟨ep, found⟩
  · rw [none]
    dsimp only
    rw [SortedMap.find_insert, none]
    rfl
  · rw [found]
    dsimp only [merge]
    split_ifs with own worse better worse better <;> simp_all

theorem find_insertPath (same : ∀ ep, m.find path.destination = some ep → ep.cost = path.cost) :
    (m.insertPath path).find j = if j = path.destination then
      some ⟨path.cost, appendUnique (m.hops path.destination) [path.nextHop]⟩ else m.find j := by
  unfold insertPath
  rcases Option.eq_none_or_eq_some (m.find path.destination) with none | ⟨ep, found⟩
  · rw [none]
    dsimp only
    rw [SortedMap.find_insert, none, hops, lookupNextHopList, none]
    rfl
  · have cost := same ep found
    rw [found, hops_some found]
    dsimp only
    rw [if_neg (by omega), if_neg (by omega), appendUnique_cons]
    split_ifs with known own own
    · rw [own, found, ← cost]
      rfl
    · rfl
    · rw [SortedMap.find_set, if_pos own, ← cost]
      rfl
    · rw [SortedMap.find_set, if_neg own]

theorem findMin_spec (es : List (ℕ × LsEqualPaths)) (best : ℕ × Option (ℕ × LsEqualPaths)) :
    (es.foldl findMin best = best ∨
      ∃ e ∈ es, es.foldl findMin best = (e.2.cost, some e) ∧ e.2.nextHopList ≠ [] ∧ e.2.cost < best.1) ∧
    ∀ e ∈ es, e.2.nextHopList ≠ [] → (es.foldl findMin best).1 ≤ e.2.cost := by
  induction es generalizing best with
  | nil => exact ⟨Or.inl rfl, nofun⟩
  | cons e es ih =>
    obtain ⟨origin, least⟩ := ih (findMin best e)
    have low : (es.foldl findMin (findMin best e)).1 ≤ (findMin best e).1 := by
      rcases origin with same | ⟨f, _, found, _, less⟩
      · exact (congrArg Prod.fst same).le
      · exact (congrArg Prod.fst found).trans_le less.le
    rw [List.foldl_cons]
    by_cases better : e.2.cost < best.1 ∧ e.2.nextHopList ≠ []
    · have taken : findMin best e = (e.2.cost, some e) := if_pos better
      refine ⟨Or.inr ?_, fun f member hops => ?_⟩
      · rcases origin with same | ⟨f, member, found, hops, less⟩
        · exact ⟨e, List.mem_cons_self, same.trans taken, better.2, better.1⟩
        · rw [taken] at less
          exact ⟨f, List.mem_cons_of_mem e member, found, hops, less.trans better.1⟩
      · rcases List.mem_cons.mp member with rfl | later
        · exact low.trans (congrArg Prod.fst taken).le
        · exact least f later hops
    · have skipped : findMin best e = best := if_neg better
      rw [skipped] at origin least low ⊢
      refine ⟨origin.imp_right fun ⟨f, member, rest⟩ => ⟨f, List.mem_cons_of_mem e member, rest⟩, fun f member hops => ?_⟩
      rcases List.mem_cons.mp member with rfl | later
      · exact low.trans (not_lt.mp fun less => better ⟨less, hops⟩)
      · exact least f later hops

/-- Every entry has a next hop. -/
def Hopped (m : LsPaths) : Prop := ∀ w ep, m.find w = some ep → ep.nextHopList ≠ []

/-- The path taken is one of least cost, and only its next hop goes. -/
theorem popShortestPath_cases (hopped : m.Hopped) :
    (m.popShortestPath = (m, LsPath.invalid) ∧ ∀ w ep, m.find w = some ep → LS_MAX_COST < ep.cost) ∨
    ∃ destination ep nextHop rest, m.find destination = some ep ∧ ep.nextHopList = nextHop :: rest ∧ ep.cost ≤ LS_MAX_COST ∧
      (∀ w other, m.find w = some other → ep.cost ≤ other.cost) ∧ m.popShortestPath.2 = ⟨destination, ep.cost, nextHop⟩ ∧
      ∀ w, m.popShortestPath.1.find w =
        if w = destination then if rest = [] then none else some ⟨ep.cost, rest⟩ else m.find w := by
  obtain ⟨origin, least⟩ := findMin_spec m.entries (LS_MAX_COST + 1, none)
  have least' : ∀ w ep, m.find w = some ep → (m.entries.foldl findMin (LS_MAX_COST + 1, none)).1 ≤ ep.cost := fun w ep found =>
    least (w, ep) (SortedMap.mem_entries.mpr found) (hopped w ep found)
  rcases origin with none | ⟨⟨destination, ep⟩, member, found, hops, less⟩
  · have nothing : m.findMinEqualPaths = .none := congrArg Prod.snd none
    refine Or.inl ⟨by rw [popShortestPath, nothing], fun w ep found => ?_⟩
    have low := least' w ep found
    rwa [none] at low
  · have minimum : m.findMinEqualPaths = some (destination, ep) := congrArg Prod.snd found
    rw [found] at least'
    obtain ⟨nextHop, rest, split⟩ := List.exists_cons_of_ne_nil hops
    have popped : m.popShortestPath =
        (if rest = [] then m.erase destination else m.set destination { ep with nextHopList := rest }, ⟨destination, ep.cost, nextHop⟩) := by
      rw [popShortestPath, minimum]
      dsimp only at split ⊢
      rw [split]
    refine Or.inr ⟨destination, ep, nextHop, rest, SortedMap.mem_entries.mp member, split, Nat.lt_succ_iff.mp less, least', ?_, fun w => ?_⟩
    · rw [popped]
    · rw [popped]
      dsimp only
      split_ifs with last own own
      · rw [SortedMap.find_erase, if_pos own]
      · rw [SortedMap.find_erase, if_neg own]
      · rw [SortedMap.find_set, if_pos own]
      · rw [SortedMap.find_set, if_neg own]

end LsPaths

end Specs

end Ns2
