import Statute.Docker.Labels
import Statute.Provider.Dispatch

/-!
# From a container listing to a route table

The part of `dockerprovider.go`, `docker_bindings.go` and `docker_route_policy.go` between the
listing of containers and the published table: contributions are derived from labels, validated,
merged into services, and compiled into the four tiers of a `DynamicTable`.

What the table depends on but this development does not model is collected in `Resolvers`: pool
resolution, pool handlers, code-owned bindings and the meaning of middleware.  Every result holds
for all of them.
-/

namespace Statute.Provider

open Statute.Base Statute.Docker

/-! ### Configuration -/

/-- The provider's configuration, for a type `Mw` of resolved middleware. -/
structure ProviderConfig (Mw : Type) where
  options : ExtractOptions
  routerConstraints : Bool := false
  defaultListeners : List Bytes := []
  prioritizeRoutes : Bool := false
  workloads : List Bytes := []
  defaultMiddleware : List Mw := []
  middleware : List (Bytes × List Mw) := []

/-- The resolvers the table is built with: hints and chains of middleware, pools, and bindings. -/
structure Resolvers (Mw : Type) where
  routeHints : Bytes → MiddlewareHints → Option (List Mw)
  validChain : List Mw → Bool
  canonicalMiddleware : List Mw → List Mw
  resolvesPool : Service → Bool
  startsPool : Service → Bool
  bindsHandler : Bytes → Bool

variable {Mw : Type} [DecidableEq Mw]

/-! ### Contributions -/

/-- `dockerContribution`. -/
structure Contribution where
  container : Container
  services : List Service
  tombstones : List Matcher
  rejections : List Matcher

variable (cfg : ProviderConfig Mw) (env : Resolvers Mw)

def workloadIntended (c : Container) : Bool :=
  (candidateServices c cfg.options).any (fun n => cfg.workloads.contains n)

def contributionOf (opts : ExtractOptions) (c : Container) : Contribution :=
  let x := extractWithRejections c opts
  ⟨c, x.services, x.tombstones, x.rejections⟩

/-- `deriveContributions`: a stopped container takes part only when a workload policy names it. -/
def deriveContributions (containers : List Container) : List Contribution :=
  ((stableSort (fun a b => a.name < b.name) containers).filter
    (fun c => c.running || workloadIntended cfg c)).map (contributionOf cfg.options)

def validateServiceHints (svc : Service) : Bool :=
  svc.routes.all (fun m => (env.routeHints svc.name m.hints).isSome)

def validateContributionHints (k : Contribution) : Contribution :=
  let bad := k.services.filter (fun svc => !validateServiceHints env svc)
  { k with
    services := k.services.filter (fun svc => validateServiceHints env svc)
    tombstones := k.tombstones ++ bad.flatMap (fun svc => envelopeOf svc.routes)
    rejections := k.rejections ++ bad.flatMap Service.routes }

/-- `Matcher.Equal`. -/
def matcherEqual (m o : Matcher) : Bool :=
  m.host == o.host && m.hostKind == o.hostKind && m.path == o.path && m.pathKind == o.pathKind &&
    m.middlewares == o.middlewares && m.hints == o.hints && m.peerIPCIDRs == o.peerIPCIDRs &&
    m.listenerNames == o.listenerNames && m.priority == o.priority

/-- The route loop of `mergeService`: unseen routes are appended. -/
def mergeRoutes : List Matcher → List Matcher → List Matcher
  | base, [] => base
  | base, r :: rest =>
    if base.any (matcherEqual r) then mergeRoutes base rest else mergeRoutes (base ++ [r]) rest

def mergeService (base add : Service) : Service :=
  { base with
    extra := base.extra ++ add.backend :: add.extra
    contributors := base.contributors + add.contributors
    running := base.running || add.running
    routes := mergeRoutes base.routes add.routes }

/-- One service of `mergeContributions`: the first of its name, or merged into it. -/
def addMerged (merged : List (Bytes × Service)) (svc : Service) : List (Bytes × Service) :=
  if (merged.lookup svc.name).isSome then
    merged.map (fun e => if e.1 = svc.name then (e.1, mergeService e.2 svc) else e)
  else merged ++ [(svc.name, svc)]

/-- `mergeContributions`: services by name, tombstones and rejections, of the contributions that are
not excluded. -/
def mergeContributions (contributions : List Contribution) (excluded : Container → Bool) :
    List Service × List Matcher × List Matcher :=
  let kept := contributions.filter (fun k => !excluded k.container)
  ((sortedEntries ((kept.flatMap Contribution.services).foldl addMerged [])).map Prod.snd,
    kept.flatMap Contribution.tombstones, kept.flatMap Contribution.rejections)

/-! ### Listeners -/

/-- `slices.Sort` and `slices.Compact` of names. -/
def sortNames (names : List Bytes) : List Bytes := compact (names.insertionSort (· ≤ ·))

/-- `routeListeners`: names are ignored without router constraints, and the defaults stand in for a
route that names none. -/
def routeListeners (names : List Bytes) : List Bytes :=
  if cfg.routerConstraints then sortNames (if names = [] then cfg.defaultListeners else names)
  else []

/-- The loop body of `normalizeRouteConstraints`. -/
def normalizeConstraints (r : CompiledRoute) : CompiledRoute :=
  { r with matcher := { r.matcher with
      priorityOrder := cfg.prioritizeRoutes
      listenerNames := routeListeners cfg r.matcher.listenerNames } }

/-! ### Compiling services -/

/-- What one service adds to the table under construction: served matchers, rejected matchers, and
refusal envelopes. -/
structure Compiled where
  routes : List Matcher := []
  rejections : List Matcher := []
  tombstones : List Matcher := []

/-- `refuse`: parsed claims are retained and their envelope refuses. -/
def refuse (ms : List Matcher) : Compiled := { rejections := ms, tombstones := envelopeOf ms }

/-- Put two parts of a table together. -/
def Compiled.join (a b : Compiled) : Compiled :=
  ⟨a.routes ++ b.routes, a.rejections ++ b.rejections, a.tombstones ++ b.tombstones⟩

/-- The chains `routeMiddleware` looks up, in label order; nothing for an unregistered name. -/
def lookupChains (registered : List (Bytes × List Mw)) : List Bytes → Option (List Mw)
  | [] => some []
  | name :: rest =>
    match registered.lookup name, lookupChains registered rest with
    | some chain, some chains => some (chain ++ chains)
    | _, _ => none

/-- `resolveRouteMiddleware`: nothing when the route fails closed. -/
def resolveRouteMiddleware (service : Bytes) (m : Matcher) : Option (List Mw) :=
  match env.routeHints service m.hints, lookupChains cfg.middleware m.middlewares with
  | some hints, some chains =>
    let out := cfg.defaultMiddleware ++ chains ++ hints
    if env.validChain out then some out else none
  | _, _ => none

/-- `dockerRoutePredicate`: listener names are compared as one joined text.  The peers are compared
as prefixes, whose texts hold no comma. -/
structure RoutePredicate where
  host : Bytes
  hostKind : HostKind
  path : Bytes
  pathKind : PathKind
  peers : List Prefix
  listeners : Bytes
  priority : ℤ
deriving DecidableEq

/-- The key of `coalesceRouteChains`. -/
def routePredicate (m : Matcher) : RoutePredicate :=
  { host := m.host, hostKind := m.hostKind, path := m.path, pathKind := m.pathKind,
    peers := m.peerIPCIDRs
    listeners := (lit ",").intercalate (routeListeners cfg m.listenerNames)
    priority := if cfg.prioritizeRoutes then m.priority else 0 }

/-- `dockerRoutePolicyGroup`. -/
structure PolicyGroup (Mw : Type) where
  matcher : Matcher
  mws : List Mw
  conflict : Bool := false

/-- The grouping loop of `coalesceRouteChains`. -/
def addChain (groups : List (PolicyGroup Mw)) (m : Matcher)
    (mws : List Mw) : List (PolicyGroup Mw) :=
  if groups.any (fun g => routePredicate cfg g.matcher == routePredicate cfg m) then
    groups.map (fun g =>
      if routePredicate cfg g.matcher = routePredicate cfg m then
        { g with conflict := g.conflict || g.mws != mws }
      else g)
  else groups ++ [⟨m, mws, false⟩]

/-- `coalesceRouteChains`: one route for each predicate, refused when its policies differ. -/
def coalesceRouteChains (chains : List (Matcher × List Mw)) : Compiled :=
  let groups := chains.foldl (fun gs c => addChain cfg gs c.1 (env.canonicalMiddleware c.2)) []
  (groups.map (fun g => if g.conflict then refuse [g.matcher] else { routes := [g.matcher] })).foldl
    Compiled.join {}

/-- `routeChains`: each route is refused on its own or joins the coalescing. -/
def routeChains (svc : Service) : Compiled :=
  let resolved := svc.routes.map (fun m => (m, resolveRouteMiddleware cfg env svc.name m))
  let refused := resolved.filterMap (fun p => if p.2.isNone then some (refuse [p.1]) else none)
  let kept := resolved.filterMap (fun p => p.2.map (fun mws => (p.1, mws)))
  (refused.foldl Compiled.join {}).join (coalesceRouteChains cfg env kept)

def addBoundService (svc : Service) : Compiled :=
  if !env.bindsHandler svc.boundService then refuse svc.routes else routeChains cfg env svc

/-- `addService`: a pool that does not resolve or start refuses the service's routes. -/
def addService (svc : Service) : Compiled :=
  if svc.boundService ≠ [] then addBoundService cfg env svc
  else if !env.resolvesPool svc then refuse svc.routes
  else
    let chains := routeChains cfg env svc
    if chains.routes = [] ∧ svc.routes ≠ [] ∧
        !cfg.options.referencedServices.contains svc.name then chains
    else if !env.startsPool svc then
      ({ chains with routes := [] } : Compiled).join (refuse chains.routes)
    else chains

/-! ### The table -/

/-- `compileRefusals`: middleware policy is dropped, the predicate is kept. -/
def compileRefusals (ms : List Matcher) : List CompiledRoute :=
  ms.map (fun m => { matcher := { m with middlewares := [], hints := {} } })

def compileQuarantineRoutes (claims : List RouteClaim) : List CompiledRoute :=
  claims.map (fun k => { service := k.service, matcher := k.matcher })

/-- `compileTombstones`: with listener constraints or priorities no tombstone absorbs another. -/
def compileTombstones (ms : List Matcher) : List CompiledRoute :=
  compileRefusals
    (if cfg.routerConstraints || cfg.prioritizeRoutes then ms.flatMap (fun m => envelopeOf [m])
     else envelopeOf ms)

/-- Normalise and sort one tier. -/
def finishTier (routes : List CompiledRoute) : List CompiledRoute :=
  sortDynamicRoutes (routes.map (normalizeConstraints cfg))

def buildTable (services : List Service)
    (tombstones rejected : List Matcher) (quarantines : List RouteClaim) : DynamicTable :=
  let compiled := services.map (fun svc => (svc.name, addService cfg env svc))
  { routes := finishTier cfg (compiled.flatMap (fun p => p.2.routes.map (fun m => ⟨p.1, m, []⟩)))
    quarantines := finishTier cfg (compileQuarantineRoutes quarantines)
    rejections := finishTier cfg
      (compileRefusals (rejected ++ compiled.flatMap (fun p => p.2.rejections)))
    tombstones := finishTier cfg
      (compileTombstones cfg (tombstones ++ compiled.flatMap (fun p => p.2.tombstones))) }

def quarantineRouteClaims (containers : List Container)
    (quarantined : Container → Bool) : List RouteClaim :=
  (containers.filter quarantined).flatMap (fun c => routeClaims c cfg.options)

/-- The table `sync` builds from a listing, with the containers under mutation quarantine given. -/
def generation (containers : List Container) (quarantined : Container → Bool) : DynamicTable :=
  let contributions := (deriveContributions cfg containers).map (validateContributionHints env)
  let merged := mergeContributions contributions quarantined
  buildTable cfg env merged.1 merged.2.1 merged.2.2
    (quarantineRouteClaims cfg containers quarantined)

end Statute.Provider
