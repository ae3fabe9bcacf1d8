import Mathlib.Algebra.Order.Field.Rat
import Ns2.Library.Asserting
import Ns2.Library.Machine

namespace Ns2

inductive IdType
  | none
  | mac
  | ip
deriving DecidableEq

/-- What `==` of `ID` compares. -/
structure DsrId where
  addr : ℕ
  type : IdType
deriving DecidableEq

def invalidAddr : DsrId := ⟨0xffffffff, .none⟩

inductive LinkType
  | none
  | tested
  | untested
deriving DecidableEq

inductive LogStatus
  | none
  | unlogged
  | logged
deriving DecidableEq

/-- An `ID` in a path. -/
structure Hop where
  id : DsrId
  t : ℚ
  linkType : LinkType
  logStat : LogStatus
deriving DecidableEq

abbrev DsrPath := List Hop

/-- `MAX_SR_LEN`. -/
def maxSrLen : ℕ := 16

/-- The part of a path that counts for its routes. -/
def ids (p : DsrPath) : List DsrId := p.map Hop.id

/-- `appendToPath`, for one id after the other. -/
def appendAll (p : DsrPath) : List Hop → Option DsrPath
  | [] => some p
  | hop :: rest => asserting (p.length < maxSrLen) (appendAll (p ++ [hop]) rest)

/-- How far two paths go together. -/
def agreeing : DsrPath → DsrPath → ℕ
  | hop :: p, hop' :: q => if hop.id = hop'.id then agreeing p q + 1 else 0
  | _, _ => 0

/-- The links that an entry shares with the new path from the start on get the time and the type they have there. -/
def freshen : DsrPath → DsrPath → DsrPath
  | hop :: next :: p, hop' :: next' :: q =>
    if hop.id = hop'.id then
      (if next.id = next'.id then { hop with t := hop'.t, linkType := hop'.linkType } else hop) :: freshen (next :: p) (next' :: q)
    else hop :: next :: p
  | p, _ => p

/-- The place of a link in a path. -/
def linkAt (src dst : DsrId) : DsrPath → Option ℕ
  | hop :: next :: p => if hop.id = src ∧ next.id = dst then some 0 else (linkAt src dst (next :: p)).map (· + 1)
  | _ => none

/-- What `noticeDeadLink` does to one path. -/
def truncate (src dst : DsrId) (p : DsrPath) : DsrPath :=
  match linkAt src dst p with
  | none => p
  | some 0 => []
  | some (n + 1) => (p.take (n + 2)).modify (n + 1) fun hop => { hop with logStat := .unlogged }

/-- The time and the types that a route gets before it is put into the cache: what follows the one it came from is untested. -/
def stamp (t : ℚ) (whoFrom : DsrId) : LinkType → DsrPath → DsrPath
  | _, [] => []
  | kind, hop :: rest =>
    let kind := if hop.id = whoFrom then .untested else kind
    { hop with logStat := .unlogged, linkType := kind, t := t } :: stamp t whoFrom kind rest

structure Cache where
  cache : List DsrPath
  victimPtr : ℕ
  inside : victimPtr < cache.length

namespace Cache

def make (size : ℕ) (positive : 0 < size) : Cache := ⟨.replicate size [], 0, by rwa [List.length_replicate]⟩

def set (c : Cache) (index : ℕ) (p : DsrPath) : Cache :=
  ⟨c.cache.set index p, c.victimPtr, by rw [List.length_set]; exact c.inside⟩

def map (c : Cache) (f : DsrPath → DsrPath) : Cache := ⟨c.cache.map f, c.victimPtr, by rw [List.length_map]; exact c.inside⟩

/-- `victim_ptr` moves on. -/
def turn (c : Cache) : Cache where
  cache := c.cache
  victimPtr := if c.victimPtr + 1 = c.cache.length then 0 else c.victimPtr + 1
  inside := by
    have inside := c.inside
    split_ifs <;> omega

def pickVictim (c : Cache) : Cache × ℕ :=
  match c.cache.findIdx? List.isEmpty with
  | some index => (c, index)
  | none => (c.turn, c.victimPtr)

/-- The new cache and `common_prefix_len`. -/
def addRoute (c : Cache) (path : DsrPath) : Option (Cache × ℕ) :=
  match c.cache.findIdx? fun entry => agreeing entry path = entry.length ∨ agreeing entry path = path.length with
  | some index => do
    let entry := c.cache.getD index []
    let n := agreeing entry path
    let merged ← if n = entry.length then appendAll entry (path.drop n) else some entry
    return ((c.set index merged).map fun entry => freshen entry path, n)
  | none => some ((c.pickVictim.1.set c.pickVictim.2 path).map fun entry => freshen entry path, 0)

def noticeDeadLink (c : Cache) (src dst : DsrId) : Cache := c.map (truncate src dst)

end Cache

structure RouteCache where
  macId : DsrId
  netId : DsrId
  cacheIgnoreHints : Bool
  cacheUseOverheardRoutes : Bool

namespace RouteCache

/-- The id is one of the node's own. -/
def isOwn (rc : RouteCache) (id : DsrId) : Prop := id = rc.netId ∨ id = rc.macId

instance (rc : RouteCache) (id : DsrId) : Decidable (rc.isOwn id) := inferInstanceAs (Decidable (_ ∨ _))

/-- The route to add, where processing continues. -/
def preAddRoute (rc : RouteCache) (route : DsrPath) (t : ℚ) (whoFrom : DsrId) : Option DsrPath :=
  match route with
  | hop :: _ :: _ => if rc.isOwn hop.id then some (stamp t whoFrom .tested route) else none
  | _ => none

/-- The route to add, where processing continues; `index` is where the packet with the route has come to. -/
def preNoticeRouteUsed (rc : RouteCache) (p : DsrPath) (index : ℕ) (t : ℚ) (whoFrom : DsrId) : Option DsrPath :=
  if p.length < 2 then none
  else if rc.cacheIgnoreHints = true then none
  else
    match p.findIdx? fun hop => rc.isOwn hop.id with
    | some c => if c = p.length - 1 then none else some (stamp t whoFrom .tested (p.drop c))
    | none =>
      if rc.cacheUseOverheardRoutes = true then
        if index = 0 then none
        else
          let stub := ⟨rc.netId, -1, .none, .none⟩ :: (p.drop (index - 1)).take (maxSrLen - 1)
          some ((stamp t whoFrom .tested stub).modify 0 fun hop => { hop with linkType := .untested })
      else none

end RouteCache

structure MobiCache extends RouteCache where
  primaryCache : Cache
  secondaryCache : Cache

/-- The variables of the two loops of `findRoute`. -/
structure Search where
  minIndex : ℕ
  minLength : ℕ
  minCache : ℕ
  route : DsrPath

namespace Search

def start : Search := ⟨0, maxSrLen + 1, 0, []⟩

/-- A route of that length in the primary cache. -/
def primaryHit (s : Search) (_ len : ℕ) (path : DsrPath) : Search :=
  if len < s.minLength then { s with minCache := 2, minLength := len, route := path } else { s with minCache := 2 }

/-- A route of that length in the secondary cache. -/
def secondaryHit (s : Search) (index len : ℕ) (path : DsrPath) : Search :=
  if len < s.minLength then ⟨index, len, 1, path⟩ else s

/-- The loop over all that `searchRoute` finds from an index on. -/
def searchAll (hit : Search → ℕ → ℕ → DsrPath → Search) (dest : DsrId) : Search → ℕ → List DsrPath → Search
  | s, _, [] => s
  | s, index, path :: rest =>
    match path.findIdx? fun hop => hop.id = dest with
    | some len => searchAll hit dest (hit s index len path) (index + 1) rest
    | none => searchAll hit dest s (index + 1) rest

end Search

namespace MobiCache

def make (rc : RouteCache) : MobiCache := ⟨rc, .make 30 (by decide), .make 64 (by decide)⟩

/-- All cached paths, with the empty ones. -/
def paths (m : MobiCache) : List DsrPath := m.primaryCache.cache ++ m.secondaryCache.cache

def addRoute (m : MobiCache) (route : DsrPath) (t : ℚ) (whoFrom : DsrId) : Option MobiCache :=
  asserting (m.netId ≠ invalidAddr) <|
    match m.preAddRoute route t whoFrom with
    | some rt => (m.primaryCache.addRoute rt).map fun result => { m with primaryCache := result.1 }
    | none => some m

def noticeDeadLink (m : MobiCache) (src dst : DsrId) : MobiCache :=
  { m with
    primaryCache := m.primaryCache.noticeDeadLink src dst
    secondaryCache := m.secondaryCache.noticeDeadLink src dst }

def noticeRouteUsed (m : MobiCache) (p : DsrPath) (index : ℕ) (t : ℚ) (whoFrom : DsrId) : Option MobiCache :=
  match m.preNoticeRouteUsed p index t whoFrom with
  | some stub => (m.secondaryCache.addRoute stub).map fun result => { m with secondaryCache := result.1 }
  | none => some m

/-- The route found, the shortest of the primary cache unless the secondary cache has a shorter one. -/
def search (m : MobiCache) (dest : DsrId) : Search :=
  Search.searchAll .secondaryHit dest (Search.searchAll .primaryHit dest .start 0 m.primaryCache.cache) 0 m.secondaryCache.cache

/-- The found route moves from the secondary to the primary cache. -/
def promote (m : MobiCache) (minIndex : ℕ) : Option MobiCache :=
  (m.primaryCache.addRoute (m.secondaryCache.cache.getD minIndex [])).map fun result =>
    { m with primaryCache := result.1, secondaryCache := m.secondaryCache.set minIndex [] }

/-- The route, where there is one. -/
def findRoute (m : MobiCache) (dest : DsrId) (forMe : Bool) : Option (MobiCache × Option DsrPath) :=
  let s := m.search dest
  asserting (m.netId ≠ invalidAddr) <|
    (if s.minCache = 1 ∧ forMe = true then m.promote s.minIndex else some m).bind fun m =>
      if s.minCache ≠ 0 then asserting (s.minLength + 1 ≤ maxSrLen) (some (m, some (s.route.take (s.minLength + 1))))
      else some (m, none)

inductive Event
  | addRoute (route : DsrPath) (t : ℚ) (whoFrom : DsrId)
  | noticeRouteUsed (p : DsrPath) (index : ℕ) (t : ℚ) (whoFrom : DsrId)
  | noticeDeadLink (src dst : DsrId)
  | findRoute (dest : DsrId) (forMe : Bool)
deriving DecidableEq

/-- The calls, and the routes that `findRoute` gives. -/
def machine : Machine MobiCache Event (Option DsrPath) where
  step m
    | .addRoute route t whoFrom => (m.addRoute route t whoFrom).map fun m => (m, none)
    | .noticeRouteUsed p index t whoFrom => (m.noticeRouteUsed p index t whoFrom).map fun m => (m, none)
    | .noticeDeadLink src dst => some (m.noticeDeadLink src dst, none)
    | .findRoute dest forMe => m.findRoute dest forMe

end MobiCache

end Ns2
