import Statute.Base.TextMap
import Statute.Docker.Envelope

/-!
# Services and refusals from container labels

`internal/docker/labels.go`: the services, refusal envelopes and rejected matchers one container's
labels give, for the native `statute.*` schema and the `traefik.*` one.  Warnings are log lines and
are left out; what they signal to the extraction itself (an unreadable enable label, a service name
that cannot be chosen) is kept.
-/

namespace Statute.Docker

open Statute.Base

/-! ### Containers -/

/-- `Container`: what the engine reports about one container.  Maps are lists of entries in the
order a loop visits them. -/
structure Container where
  id : Bytes
  name : Bytes
  labels : List (Bytes × Bytes)
  networks : List (Bytes × Bytes) := []
  ports : List ℕ := []
  running : Bool
  labels_nodup : (labels.map Prod.fst).Nodup
  networks_nodup : (networks.map Prod.fst).Nodup

variable (c : Container)

def Container.label (key : Bytes) : Bytes := textGet c.labels key []

structure Backend where
  address : Bytes := []
  weight : ℕ := 0
  backup : Bool := false
deriving DecidableEq

structure Service where
  boundService : Bytes := []
  name : Bytes
  routes : List Matcher := []
  backend : Backend := {}
  extra : List Backend := []
  container : Bytes
  containerID : Bytes
  running : Bool
  contributors : ℕ := 1
  strategy : Bytes := []
  healthCheckPath : Bytes := []
  healthCheckInterval : Bytes := []
  healthCheckTimeout : Bytes := []
deriving DecidableEq

structure ExtractOptions where
  boundServices : List Bytes := []
  referencedServices : List Bytes := []
  network : Bytes := []
  exposedByDefault : Bool := false
  traefikLabels : Bool := false

structure RouteClaim where
  service : Bytes
  matcher : Matcher
deriving DecidableEq

/-- What extraction returns: services, refusal envelope and the parsed matchers of rejected
registrations. -/
structure Extraction where
  services : List Service := []
  tombstones : List Matcher := []
  rejections : List Matcher := []

/-! ### Shared readers -/

def hasPrefixedLabels (labels : List (Bytes × Bytes)) (pre : Bytes) : Bool :=
  labels.any (fun kv => hasPrefix kv.1 pre)

/-- The outcome of reading an enable label. -/
structure EnableLabel where
  on : Bool
  unreadable : Bool := false
deriving DecidableEq

/-- `enableBoolLabel`, with the answer for an absent label given: an unreadable value is off and
warned about. -/
def enableBoolLabel (key : Bytes) (absent : Bool) : EnableLabel :=
  match c.labels.lookup key with
  | none => { on := absent }
  | some v =>
    match parseBool (trimSpace v) with
    | some b => { on := b }
    | none => { on := false, unreadable := true }

def optionBoolLabel (key : Bytes) : Bool := (enableBoolLabel c key false).on

def statutePrefix : Bytes := lit "statute."

def traefikPrefix : Bytes := lit "traefik."

variable (opts : ExtractOptions)

def nativeEnabled : EnableLabel :=
  enableBoolLabel c (lit "statute.enable")
    (opts.exposedByDefault || hasPrefixedLabels c.labels statutePrefix)

def traefikEnabled : EnableLabel :=
  enableBoolLabel c (lit "traefik.enable") opts.exposedByDefault

def defaultServiceName : Bytes :=
  if c.label (lit "com.docker.compose.service") ≠ [] then
    c.label (lit "com.docker.compose.service")
  else c.name

/-- `containerIP`: the labelled network, the preferred one, else the first by name. -/
def containerIP (labelNetwork : Bytes) (opts : ExtractOptions) : Bytes :=
  if labelNetwork ≠ [] then textGet c.networks labelNetwork []
  else if opts.network ≠ [] ∧ textGet c.networks opts.network [] ≠ [] then
    textGet c.networks opts.network []
  else match sortedEntries c.networks with
    | [] => []
    | (_, ip) :: _ => ip

/-- `containerPort`: zero when there is none. -/
def containerPort (labelPort : Bytes) : ℕ :=
  if labelPort ≠ [] then
    match atoi labelPort with
    | some p => if 0 < p ∧ p ≤ 65535 then p.toNat else 0
    | none => 0
  else c.ports.headD 0

/-- `net.JoinHostPort`. -/
def joinHostPort (host port : Bytes) : Bytes :=
  if containsByte host (ch ':') then lit "[" ++ host ++ lit "]:" ++ port
  else host ++ lit ":" ++ port

/-- `backendAddress`: empty for a scheme the proxy does not speak. -/
def backendAddress (scheme ip : Bytes) (port : ℕ) : Bytes :=
  let addr := joinHostPort ip (decText port)
  let scheme := toLower (trimSpace scheme)
  if scheme = lit "https" then lit "https://" ++ addr
  else if scheme = [] ∨ scheme = lit "http" then addr
  else []

/-- The non-empty trimmed fragments of a comma-separated label value. -/
def splitNames (v : Bytes) : List Bytes :=
  ((split (ch ',') v).map trimSpace).filter (fun n => n ≠ [])

/-! ### Native labels -/

def nativeApplies : Bool :=
  if hasPrefixedLabels c.labels statutePrefix then true
  else if !opts.exposedByDefault then false
  else !opts.traefikLabels || !hasPrefixedLabels c.labels traefikPrefix

def nativeWeight : ℕ :=
  if c.label (lit "statute.weight") = [] then 1
  else match atoi (c.label (lit "statute.weight")) with
    | some n => if n < 1 then 1 else n.toNat
    | none => 1

/-- `nativeBackend`: nothing when the container cannot be routed. -/
def nativeBackend : Option Backend :=
  let ip := containerIP c (c.label (lit "statute.network")) opts
  if ip = [] then none
  else
    let port := containerPort c (c.label (lit "statute.port"))
    if port = 0 then none
    else
      let addr := backendAddress (c.label (lit "statute.scheme")) ip port
      if addr = [] then none
      else some
        { address := addr, weight := nativeWeight c,
          backup := optionBoolLabel c (lit "statute.backup") }

/-- `nativeBackendFor`: a stopped container contributes an empty backend. -/
def nativeBackendFor : Option Backend :=
  if c.running then nativeBackend c opts else some {}

/-- One label of a `statute.routes.<name>` group, folded into the group's matcher. -/
def namedRouteField (field v : Bytes) (m : Matcher) : Matcher :=
  if field = lit "host" then
    let host := toLower (trimSpace v)
    { m with host := host, hostKind := if host = [] then .any else .exact }
  else if field = lit "path" then { m with path := v, pathKind := statutePathKind v }
  else m

/-- The loop of `namedRoutes` over the labels. -/
def collectNamedRoutes : List (Bytes × Matcher) → List (Bytes × Bytes) → List (Bytes × Matcher)
  | extra, [] => extra
  | extra, (k, v) :: rest =>
    match cutPrefix k (lit "statute.routes.") with
    | (_, false) => collectNamedRoutes extra rest
    | (after, true) =>
      match cut after (ch '.') with
      | (name, field, ok) =>
        if ok = false ∨ name = [] then collectNamedRoutes extra rest
        else collectNamedRoutes (upsert name { path := wildcard } (namedRouteField field v) extra) rest

/-- `namedRoutes`, ordered by route name. -/
def namedRoutes : List Matcher :=
  (sortedEntries (collectNamedRoutes [] c.labels)).map Prod.snd

/-- The host loop of `nativeRoutes`: one matcher for each host, or one for any host. -/
def hostRoutes (hosts : List Bytes) (path : Bytes) : List Matcher :=
  if hosts = [] then [{ path := path, pathKind := statutePathKind path }]
  else hosts.map (fun h =>
    { host := toLower h, hostKind := .exact, path := path, pathKind := statutePathKind path })

def nativeRoutes : List Matcher :=
  let path := if c.label (lit "statute.path") = [] then wildcard else c.label (lit "statute.path")
  hostRoutes (splitNames (c.label (lit "statute.host"))) path ++ namedRoutes c

/-- `refuseNative`: a container without a native label leaves nothing. -/
def refuseNative : Extraction :=
  if hasPrefixedLabels c.labels statutePrefix then
    { tombstones := envelopeOf (nativeRoutes c), rejections := nativeRoutes c }
  else {}

def nativeServiceName : Bytes :=
  if c.label (lit "statute.service") ≠ [] then c.label (lit "statute.service")
  else defaultServiceName c

def extractNative : Extraction :=
  let enabled := nativeEnabled c opts
  if !enabled.on then if enabled.unreadable then refuseNative c else {}
  else if !nativeApplies c opts then {}
  else match nativeBackendFor c opts with
    | none => refuseNative c
    | some backend =>
      let hints : MiddlewareHints :=
        { timeout := c.label (lit "statute.timeout"), rateLimit := c.label (lit "statute.ratelimit"),
          compress := c.label (lit "statute.compress") }
      { services :=
        [{ name := nativeServiceName c
           routes := (nativeRoutes c).map (fun m => { m with hints := hints })
           backend := backend, container := c.name, containerID := c.id, running := c.running
           strategy := c.label (lit "statute.strategy")
           healthCheckPath := c.label (lit "statute.healthcheck.path")
           healthCheckInterval := c.label (lit "statute.healthcheck.interval")
           healthCheckTimeout := c.label (lit "statute.healthcheck.timeout") }] }

/-! ### Traefik labels -/

structure TraefikRouter where
  name : Bytes := []
  rule : Bytes := []
  service : Bytes := []
  middlewares : Bytes := []
  entrypoints : Bytes := []
  priority : Bytes := []
deriving DecidableEq

structure TraefikService where
  port : Bytes := []
  scheme : Bytes := []
  hcPath : Bytes := []
  hcInterval : Bytes := []
  hcTimeout : Bytes := []
deriving DecidableEq

/-- The field switch of `traefikRouterLabel`. -/
def routerField (field v : Bytes) (r : TraefikRouter) : TraefikRouter :=
  if field = lit "rule" then { r with rule := v }
  else if field = lit "service" then { r with service := v }
  else if field = lit "priority" then { r with priority := v }
  else if field = lit "entrypoints" ∨ field = lit "entryPoints" then { r with entrypoints := v }
  else if field = lit "middlewares" then { r with middlewares := v }
  else r

def traefikRouterLabel (k v : Bytes) (routers : List (Bytes × TraefikRouter)) :
    List (Bytes × TraefikRouter) :=
  match cut (cutPrefix k (lit "traefik.http.routers.")).1 (ch '.') with
  | (_, _, false) => routers
  | (name, field, true) => upsert name { name := name } (routerField field v) routers

/-- The field switch of `traefikServiceLabel`. -/
def serviceField (field v : Bytes) (s : TraefikService) : TraefikService :=
  if field = lit "loadbalancer.server.port" ∨ field = lit "loadBalancer.server.port" then
    { s with port := v }
  else if field = lit "loadbalancer.server.scheme" ∨ field = lit "loadBalancer.server.scheme" then
    { s with scheme := v }
  else if field = lit "loadbalancer.healthcheck.path" ∨
      field = lit "loadBalancer.healthCheck.path" then { s with hcPath := v }
  else if field = lit "loadbalancer.healthcheck.interval" ∨
      field = lit "loadBalancer.healthCheck.interval" then { s with hcInterval := v }
  else if field = lit "loadbalancer.healthcheck.timeout" ∨
      field = lit "loadBalancer.healthCheck.timeout" then { s with hcTimeout := v }
  else s

def traefikServiceLabel (k v : Bytes) (services : List (Bytes × TraefikService)) :
    List (Bytes × TraefikService) :=
  match cut (cutPrefix k (lit "traefik.http.services.")).1 (ch '.') with
  | (_, _, false) => services
  | (name, field, true) => upsert name {} (serviceField field v) services

/-- The loop of `collectTraefikLabels`. -/
def collectTraefikFrom :
    List (Bytes × TraefikRouter) → List (Bytes × TraefikService) → List (Bytes × Bytes) →
      List (Bytes × TraefikRouter) × List (Bytes × TraefikService)
  | routers, services, [] => (routers, services)
  | routers, services, (k, v) :: rest =>
    if hasPrefix k (lit "traefik.http.routers.") then
      collectTraefikFrom (traefikRouterLabel k v routers) services rest
    else if hasPrefix k (lit "traefik.http.services.") then
      collectTraefikFrom routers (traefikServiceLabel k v services) rest
    else collectTraefikFrom routers services rest

/-- `collectTraefikLabels`: routers and services by name. -/
def collectTraefikLabels : List (Bytes × TraefikRouter) × List (Bytes × TraefikService) :=
  collectTraefikFrom [] [] c.labels

/-- The routers a container declares, in the order of their names. -/
def Container.routers : List TraefikRouter :=
  (sortedEntries (collectTraefikLabels c).1).map Prod.snd

variable (r : TraefikRouter)

/-- `traefikServiceName`: nothing when several services are defined and none is named. -/
def traefikServiceName (serviceNames : List Bytes) : Option Bytes :=
  if r.service ≠ [] then some r.service
  else match serviceNames with
    | [] => some (defaultServiceName c)
    | [name] => some name
    | _ => none

def TraefikRouter.declared : List Bytes := splitNames r.entrypoints

/-- The priority of a router's matchers: the label, or the length of the rule when the label is
absent or zero; nothing when the label is not a number. -/
def TraefikRouter.effectivePriority : Option ℤ :=
  if r.priority = [] then some r.rule.length
  else (atoi r.priority).map (fun n => if n = 0 then (r.rule.length : ℤ) else n)

/-- `traefikRouterConstraints`: the stamped matchers and whether the priority was readable.  An
unreadable priority returns before any listener name is stamped. -/
def traefikRouterConstraints (ms : List Matcher) : List Matcher × Bool :=
  match r.effectivePriority with
  | none => (ms, false)
  | some priority =>
    (ms.map (fun m => { m with priority := priority, listenerNames := r.declared }), true)

def traefikMissingAddress (ip : Bytes) (bound : List Bytes) : Bool :=
  ip == [] && c.running && !bound.contains r.service

def stampMiddlewares (ms : List Matcher) (middlewares : Bytes) : List Matcher :=
  if splitNames middlewares = [] then ms
  else ms.map (fun m => { m with middlewares := splitNames middlewares })

/-- `traefikBackend`: the empty address when the service cannot be built. -/
def traefikBackend (ts : TraefikService) (ip : Bytes) : Bytes :=
  let port := containerPort c ts.port
  if port = 0 then [] else backendAddress ts.scheme ip port

/-- The suffix that keeps Traefik services apart from native ones. -/
def atTraefik (name : Bytes) : Bytes := name ++ lit "@traefik"

def traefikContribution (name : Bytes) (ts : TraefikService) (ip : Bytes) : Option Service :=
  let svc (backend : Backend) : Service :=
    { name := atTraefik name, backend := backend, container := c.name, containerID := c.id,
      running := c.running, healthCheckPath := ts.hcPath, healthCheckInterval := ts.hcInterval,
      healthCheckTimeout := ts.hcTimeout }
  if c.running then
    if ip = [] then none
    else
      let address := traefikBackend c ts ip
      if address = [] then none else some (svc { address := address, weight := 1 })
  else some (svc {})

/-- The closure `refuse` of `bindTraefikRouter`. -/
def refuseRouter (parsed env : List Matcher) : Extraction :=
  { tombstones := (traefikRouterConstraints r env).1, rejections := parsed }

/-- `bindTraefikRouter`: at most one service, or the refusal of the router's traffic. -/
def bindTraefikRouter
    (services : List (Bytes × TraefikService)) (ip : Bytes) (bound : List Bytes) : Extraction :=
  if trimSpace r.rule = [] then {}
  else match parseRule r.rule with
    | .error _ => refuseRouter r [] (ruleEnvelope r.rule)
    | .ok ms =>
      match traefikRouterConstraints r ms with
      | (_, false) => refuseRouter r [] (envelopeOf ms)
      | (ms, true) =>
        if traefikMissingAddress c r ip bound then refuseRouter r ms (envelopeOf ms)
        else
          let ms := stampMiddlewares ms r.middlewares
          match traefikServiceName c r ((sortedEntries services).map Prod.fst) with
          | none => refuseRouter r ms (envelopeOf ms)
          | some svcName =>
            if svcName = [] then refuseRouter r ms (envelopeOf ms)
            else if bound.contains svcName then
              { services := [{ boundService := svcName, name := atTraefik svcName, routes := ms,
                               container := c.name, containerID := c.id, running := c.running }] }
            else match traefikContribution c svcName (textGet services svcName {}) ip with
              | none => refuseRouter r ms (envelopeOf ms)
              | some svc => { services := [{ svc with routes := ms }] }

/-- The service map of `extractTraefik`: routes of same-named services are joined. -/
def addTraefikService (out : List (Bytes × Service)) (svc : Service) : List (Bytes × Service) :=
  if (out.lookup svc.name).isSome then
    out.map (fun e => if e.1 = svc.name then (e.1, { e.2 with routes := e.2.routes ++ svc.routes })
      else e)
  else out ++ [(svc.name, svc)]

/-- The router loop of `extractTraefik`. -/
def bindRouters (c : Container) (services : List (Bytes × TraefikService)) (ip : Bytes)
    (bound : List Bytes) : List (Bytes × Service) → Extraction → List TraefikRouter →
      List (Bytes × Service) × Extraction
  | out, acc, [] => (out, acc)
  | out, acc, r :: rest =>
    let x := bindTraefikRouter c r services ip bound
    bindRouters c services ip bound (x.services.foldl addTraefikService out)
      { acc with tombstones := acc.tombstones ++ x.tombstones,
                 rejections := acc.rejections ++ x.rejections } rest

def addReferencedTraefikServices (c : Container) (opts : ExtractOptions) (ip : Bytes) :
    List (Bytes × Service) → List (Bytes × TraefikService) → List (Bytes × Service)
  | out, [] => out
  | out, (name, ts) :: rest =>
    if (out.lookup (atTraefik name)).isSome ∨ opts.boundServices.contains name ∨
        !opts.referencedServices.contains (atTraefik name) then
      addReferencedTraefikServices c opts ip out rest
    else match traefikContribution c name ts ip with
      | none => addReferencedTraefikServices c opts ip out rest
      | some svc => addReferencedTraefikServices c opts ip (out ++ [(svc.name, svc)]) rest

/-- `traefikTombstones`: nothing is bound, and each router leaves the envelope of its rule. -/
def traefikTombstones (routers : List TraefikRouter) : Extraction :=
  { tombstones := routers.flatMap (fun r => (traefikRouterConstraints r (ruleEnvelope r.rule)).1)
    rejections := routers.flatMap (fun r =>
      match parseRule r.rule with
      | .ok ms => (traefikRouterConstraints r ms).1
      | .error _ => []) }

def extractTraefik : Extraction :=
  if !hasPrefixedLabels c.labels traefikPrefix then {}
  else
    let enabled := traefikEnabled c opts
    if !enabled.on then if enabled.unreadable then traefikTombstones c.routers else {}
    else
      let services := (collectTraefikLabels c).2
      let ip :=
        if c.running then containerIP c (c.label (lit "traefik.docker.network")) opts else []
      let bound := bindRouters c services ip opts.boundServices [] {} c.routers
      let out := addReferencedTraefikServices c opts ip bound.1 (sortedEntries services)
      { bound.2 with services := (sortedEntries out).map Prod.snd }

def extractWithRejections : Extraction :=
  let native := extractNative c opts
  let tfk := if opts.traefikLabels then extractTraefik c opts else {}
  { services := native.services ++ tfk.services
    tombstones := native.tombstones ++ tfk.tombstones
    rejections := native.rejections ++ tfk.rejections }

/-! ### Claims and candidates -/

/-- `routeClaims`. -/
def routeClaimsOf (service : Bytes) (ms : List Matcher) : List RouteClaim :=
  (envelopeOf ms).map (fun m => ⟨service, m⟩)

def nativeCandidate : Bool :=
  nativeApplies c opts && ((nativeEnabled c opts).on || (nativeEnabled c opts).unreadable)

def traefikCandidate : Bool :=
  opts.traefikLabels && hasPrefixedLabels c.labels traefikPrefix &&
    ((traefikEnabled c opts).on || (traefikEnabled c opts).unreadable)

def nativeRouteClaims : List RouteClaim :=
  if nativeCandidate c opts then routeClaimsOf (nativeServiceName c) (nativeRoutes c) else []

/-- The claims of one router in `traefikRouteClaims`. -/
def routerClaims (serviceNames : List Bytes) (r : TraefikRouter) : List RouteClaim :=
  let service := (traefikServiceName c r serviceNames).getD []
  let service := if service = [] then defaultServiceName c else service
  routeClaimsOf (atTraefik service) (traefikRouterConstraints r (ruleEnvelope r.rule)).1

def traefikRouteClaims : List RouteClaim :=
  if traefikCandidate c opts then
    c.routers.flatMap (routerClaims c ((sortedEntries (collectTraefikLabels c).2).map Prod.fst))
  else []

def routeClaims : List RouteClaim :=
  nativeRouteClaims c opts ++ traefikRouteClaims c opts

def candidateServices : List Bytes :=
  let native := if nativeCandidate c opts then [nativeServiceName c] else []
  let tfk :=
    if traefikCandidate c opts then
      let serviceNames := (sortedEntries (collectTraefikLabels c).2).map Prod.fst
      serviceNames.map atTraefik ++
        (c.routers.filterMap (fun r => traefikServiceName c r serviceNames)).filterMap
          (fun n => if n = [] then none else some (atTraefik n))
    else []
  ((native ++ tfk).insertionSort (· ≤ ·)).dedup

end Statute.Docker
