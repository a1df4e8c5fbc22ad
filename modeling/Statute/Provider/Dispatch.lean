import Statute.Base.HostPort
import Statute.Base.StableSort
import Statute.Docker.Match
import Mathlib.Data.Prod.Lex
import Mathlib.Order.Lex

/-!
# Dispatch over one generation of discovered routes

The part of `server.go` and `dockerprovider.go` that picks a route of a published table: routes and
quarantines are kept most specific first, the first matching route is the candidate, and a scan of
the matching quarantines decides whether a quarantine takes its place.

* `compareDynamicSpecificity` and `dynamicRoutePrecedes` are comparisons of keys in a linear order
  (`specKey`, `routeKey`), so `sortDynamicRoutes` sorts by that key (`sortDynamicRoutes_sorted`).
-/

namespace Statute.Provider

open Statute.Base Statute.Docker

/-! ### Routes and tables -/

/-- `stripPort`: the host of `r.Host` the router compares. -/
def stripPort (hostport : Bytes) : Bytes :=
  match cutLast hostport (ch ':') with
  | some (before, _) => if containsByte before (ch ']') then hostport else before
  | none => hostport

/-- `compiledRoute`, without its handler: what selects it.  The prefixes a compiled route compares
the peer with are those of its matcher. -/
structure CompiledRoute where
  service : Bytes := []
  matcher : Matcher
  clientPrefixes : List Prefix := []
deriving DecidableEq

def listenerMatches (names : List Bytes) (req : Request) : Bool :=
  if names = [] then true else names.contains req.listener

/-- The client test of `findCompiledRoute`: a constrained route needs a verified client address. -/
def clientMatches (prefixes : List Prefix) (req : Request) : Bool :=
  if prefixes = [] then true
  else match req.client with
    | none => false
    | some addr => addrInPrefixes addr prefixes

/-- The loop body of `findCompiledRoute`: the route matches the request. -/
def CompiledRoute.serves (c : CompiledRoute) (req : Request) : Bool :=
  listenerMatches c.matcher.listenerNames req && c.matcher.accepts req &&
    clientMatches c.clientPrefixes req

/-- `findCompiledRoute`: the first route in slice order that matches. -/
def findCompiledRoute (routes : List CompiledRoute) (req : Request) : Option CompiledRoute :=
  routes.find? (fun c => c.serves req)

/-- `dynamicTable`: the four tiers the dispatcher reads. -/
structure DynamicTable where
  routes : List CompiledRoute := []
  quarantines : List CompiledRoute := []
  rejections : List CompiledRoute := []
  tombstones : List CompiledRoute := []

/-! ### The order of routes -/

/-- `dynamicPatternSpecificity`: exactness, constrained length, kind. -/
def dynamicPatternSpecificity (m : Matcher) : Bool × ℕ × ℕ :=
  match m.pathKind with
  | .byte => (false, m.path.length, 0)
  | .segment | .any => (false, (cutSuffix m.path wildcard).1.length, 1)
  | .exact => (true, m.path.length, 2)

def dynamicHostSpecificity (m : Matcher) : ℕ := if m.hostKind = .exact then 1 else 0

def compareDynamicSpecificity (a b : Matcher) : ℤ :=
  if (a.host != []) ≠ (b.host != []) then if a.host != [] then 1 else -1
  else
    match dynamicPatternSpecificity a, dynamicPatternSpecificity b with
    | (aExact, aLen, aKind), (bExact, bLen, bKind) =>
      if aExact ≠ bExact then if aExact then 1 else -1
      else if aLen ≠ bLen then (aLen : ℤ) - bLen
      else if aKind ≠ bKind then (aKind : ℤ) - bKind
      else (dynamicHostSpecificity a : ℤ) - dynamicHostSpecificity b

/-- The host and path part of `dynamicRoutePrecedes`. -/
def hostPathPrecedes (a b : Matcher) : Bool :=
  if compareDynamicSpecificity a b ≠ 0 then 0 < compareDynamicSpecificity a b
  else if a.host ≠ b.host then a.host < b.host
  else a.path < b.path

def dynamicRoutePrecedes (aRoute bRoute : CompiledRoute) : Bool :=
  let a := aRoute.matcher
  let b := bRoute.matcher
  if a.priorityOrder ∧ b.priorityOrder ∧ a.priority ≠ b.priority then b.priority < a.priority
  else if compareDynamicSpecificity a b ≠ 0 then 0 < compareDynamicSpecificity a b
  else if a.host ≠ b.host then a.host < b.host
  else if a.path ≠ b.path then a.path < b.path
  else aRoute.service < bRoute.service

def sortDynamicRoutes (routes : List CompiledRoute) : List CompiledRoute :=
  stableSort dynamicRoutePrecedes routes

def sameDynamicTraffic (a b : Matcher) : Bool :=
  a.host == b.host && a.hostKind == b.hostKind && a.path == b.path && a.pathKind == b.pathKind &&
    a.peerIPCIDRs == b.peerIPCIDRs && a.listenerNames == b.listenerNames

/-! ### Selection -/

def findSameServiceDynamicRoute (routes : List CompiledRoute) (req : Request)
    (quarantine : CompiledRoute) : Option CompiledRoute :=
  routes.find? (fun route =>
    route.service == quarantine.service && sameDynamicTraffic route.matcher quarantine.matcher &&
      route.serves req)

/-- The loop of `findDynamicCandidate` over the quarantines, with the route chosen so far. -/
def scanQuarantines (routes : List CompiledRoute) (req : Request) :
    CompiledRoute → List CompiledRoute → CompiledRoute × Bool
  | route, [] => (route, false)
  | route, quarantine :: rest =>
    if quarantine.serves req = false then scanQuarantines routes req route rest
    else if sameDynamicTraffic route.matcher quarantine.matcher then
      match findSameServiceDynamicRoute routes req quarantine with
      | none => (quarantine, true)
      | some sameService => scanQuarantines routes req sameService rest
    else if dynamicRoutePrecedes quarantine route then (quarantine, true)
    else (route, false)

def findDynamicCandidate (table : DynamicTable) (req : Request) : Option (CompiledRoute × Bool) :=
  match findCompiledRoute table.routes req with
  | none => (findCompiledRoute table.quarantines req).map (fun q => (q, true))
  | some route => some (scanQuarantines table.routes req route table.quarantines)

def findDynamicHandler (table : DynamicTable) (req : Request) : Option CompiledRoute :=
  match findDynamicCandidate table req with
  | none =>
    match findCompiledRoute table.rejections req with
    | some rejected => some rejected
    | none => findCompiledRoute table.tombstones req
  | some (route, true) => some route
  | some (route, false) =>
    match findCompiledRoute table.rejections req with
    | some rejected =>
      if 0 ≤ compareDynamicSpecificity rejected.matcher route.matcher then some rejected
      else some route
    | none => some route

/-! ### Keys -/

/-- The dimensions of specificity, the most significant first. -/
def specKey (m : Matcher) : List ℕ :=
  let p := dynamicPatternSpecificity m
  [if m.host != [] then 1 else 0, if p.1 then 1 else 0, p.2.1, p.2.2, dynamicHostSpecificity m]

variable (a b : Matcher)

theorem compareDynamicSpecificity_pos :
    0 < compareDynamicSpecificity a b ↔ specKey b < specKey a := by
  rcases ha : dynamicPatternSpecificity a with ⟨ae, al, ak⟩
  rcases hb : dynamicPatternSpecificity b with ⟨be, bl, bk⟩
  simp only [compareDynamicSpecificity, specKey, ha, hb, List.cons_lt_cons_iff, List.lt_irrefl]
  cases hah : (a.host != []) <;> cases hbh : (b.host != []) <;> cases ae <;> cases be <;>
    simp <;> split_ifs <;> omega

theorem compareDynamicSpecificity_eq_zero :
    compareDynamicSpecificity a b = 0 ↔ specKey a = specKey b := by
  rcases ha : dynamicPatternSpecificity a with ⟨ae, al, ak⟩
  rcases hb : dynamicPatternSpecificity b with ⟨be, bl, bk⟩
  simp only [compareDynamicSpecificity, specKey, ha, hb, List.cons.injEq]
  cases hah : (a.host != []) <;> cases hbh : (b.host != []) <;> cases ae <;> cases be <;>
    simp <;> split_ifs <;> omega

/-- The host and path order as a key: more specific first, then the texts. -/
def hostPathKey (m : Matcher) : (List ℕ)ᵒᵈ ×ₗ Bytes ×ₗ Bytes :=
  toLex (OrderDual.toDual (specKey m), toLex (m.host, m.path))

/-- The order of routes as a key. -/
def routeKey (r : CompiledRoute) : ((List ℕ)ᵒᵈ ×ₗ Bytes ×ₗ Bytes) ×ₗ Bytes :=
  toLex (hostPathKey r.matcher, r.service)

theorem hostPathPrecedes_iff : hostPathPrecedes a b = true ↔ hostPathKey a < hostPathKey b := by
  simp only [hostPathKey, Prod.Lex.toLex_lt_toLex, OrderDual.toDual_lt_toDual,
    EmbeddingLike.apply_eq_iff_eq, ← compareDynamicSpecificity_pos,
    ← compareDynamicSpecificity_eq_zero, hostPathPrecedes]
  split_ifs <;> simp_all

theorem dynamicRoutePrecedes_iff {a b : CompiledRoute} (hoff : a.matcher.priorityOrder = false) :
    dynamicRoutePrecedes a b = true ↔ routeKey a < routeKey b := by
  have hkey : hostPathKey a.matcher = hostPathKey b.matcher ↔
      compareDynamicSpecificity a.matcher b.matcher = 0 ∧ a.matcher.host = b.matcher.host ∧
        a.matcher.path = b.matcher.path := by
    simp [hostPathKey, compareDynamicSpecificity_eq_zero]
  simp only [routeKey, Prod.Lex.toLex_lt_toLex, ← hostPathPrecedes_iff, hkey,
    dynamicRoutePrecedes, hostPathPrecedes, hoff, Bool.false_eq_true, false_and, if_false]
  split_ifs <;> simp_all

/-- **Sorted routes.**  Without priorities `sortDynamicRoutes` sorts by specificity, host, path and
service. -/
theorem sortDynamicRoutes_sorted {routes : List CompiledRoute}
    (hoff : ∀ r ∈ routes, r.matcher.priorityOrder = false) :
    (sortDynamicRoutes routes).Pairwise (fun a b => routeKey a ≤ routeKey b) :=
  pairwise_stableSort fun a ha _ _ => dynamicRoutePrecedes_iff (hoff a ha)

/-! ### Traffic -/

theorem sameDynamicTraffic_iff :
    sameDynamicTraffic a b = true ↔
      a.host = b.host ∧ a.hostKind = b.hostKind ∧ a.path = b.path ∧ a.pathKind = b.pathKind ∧
        a.peerIPCIDRs = b.peerIPCIDRs ∧ a.listenerNames = b.listenerNames := by
  simp [sameDynamicTraffic, and_assoc]

theorem sameDynamicTraffic_refl : sameDynamicTraffic a a = true := by
  simp [sameDynamicTraffic_iff]

theorem sameDynamicTraffic_congr {a b c : Matcher} (h : sameDynamicTraffic a b = true) :
    sameDynamicTraffic a c = sameDynamicTraffic b c := by
  rw [sameDynamicTraffic_iff] at h
  simp [sameDynamicTraffic, h]

/-- The order reads host, path and their kinds only. -/
theorem hostPathKey_congr {a b : Matcher} (hh : a.host = b.host) (hhk : a.hostKind = b.hostKind)
    (hp : a.path = b.path) (hpk : a.pathKind = b.pathKind) : hostPathKey a = hostPathKey b := by
  have hpat : dynamicPatternSpecificity a = dynamicPatternSpecificity b := by
    simp [dynamicPatternSpecificity, hp, hpk]
  have hhost : dynamicHostSpecificity a = dynamicHostSpecificity b := by
    simp [dynamicHostSpecificity, hhk]
  simp only [hostPathKey, specKey, hpat, hhost, hh, hp]

theorem hostPathKey_of_sameDynamicTraffic {a b : Matcher} (h : sameDynamicTraffic a b = true) :
    hostPathKey a = hostPathKey b := by
  rw [sameDynamicTraffic_iff] at h
  exact hostPathKey_congr h.1 h.2.1 h.2.2.1 h.2.2.2.1

end Statute.Provider
