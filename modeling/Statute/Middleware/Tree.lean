import Statute.Base.Header

/-!
# Middleware trees

`resolved.Middleware`, `middleware_order.go` and `server.go`: a route carries a list of middlewares, in which
`InOrder` and `OnListeners` hold lists of their own.  The checks look at the list a listener sees when the
groups are opened up (`middlewareForListener`); the server builds handlers from the tree itself
(`wrapRouteMiddleware`).

The handlers are built by any `Wrapping`, which says what each of the source's constructors makes of a
handler.  `tracing` is the one that follows a request which no middleware answers: a handler is the list of
the middlewares it passes on a listener.
-/

namespace Statute.Middleware

open Statute.Base

/-! ### Resolved middlewares -/

/-- `resolved.MiddlewareType`, without the two groups. -/
inductive MiddlewareType where
  | timeout | rateLimit | retry | cache | compress | etag | bodyLimit | requestID | securityHeaders | cors
  | basicAuth | allowIPs | denyIPs | setRequestHeader | addRequestHeader | removeRequestHeader
  | setResponseHeader | addResponseHeader | removeResponseHeader | stripPrefix | addPrefix | replacePath
  | rewritePath | requestBuffer | redirectRegex | redirectScheme | replaceEscapedPath | rewriteEscapedPath
  | stripBytePrefixes | prefixPath | encodeResponse | bufferBodies
deriving DecidableEq

/-- A `resolved.Middleware` that is not a group, with the fields the checks and the header handlers read. -/
structure Leaf where
  type : MiddlewareType
  cacheTTL : ℤ := 0
  compressAlgos : List Bytes := []
  headerName : Bytes := []
  headerValue : Bytes := []
  headerHTTPSOnly : Bool := false
  requestIDHeader : Bytes := []
  requestIDFromHeader : Bytes := []
deriving DecidableEq

/-- A `[]resolved.Middleware`. -/
inductive Chain where
  | nil
  | leaf (m : Leaf) (rest : Chain)
  | inOrder (group rest : Chain)
  | onListeners (names : List Bytes) (group rest : Chain)
deriving DecidableEq

def isRequestHeaderOp : MiddlewareType → Bool
  | .setRequestHeader | .addRequestHeader | .removeRequestHeader => true
  | _ => false

def isResponseHeaderOp : MiddlewareType → Bool
  | .setResponseHeader | .addResponseHeader | .removeResponseHeader => true
  | _ => false

/-- The operations `compileHeaderOps` collects. -/
def Leaf.isHeaderOp (m : Leaf) : Bool := isRequestHeaderOp m.type || isResponseHeaderOp m.type

/-- The rewrites `compilePathOp` compiles. -/
def Leaf.isPathOp (m : Leaf) : Bool :=
  match m.type with
  | .stripPrefix | .addPrefix | .replacePath | .rewritePath => true
  | _ => false

/-- The middlewares that run at the edge of their group; `middlewareBuilders` has no entry for them. -/
def Leaf.isHoisted (m : Leaf) : Bool := m.isHeaderOp || m.isPathOp

/-- A cache that stores something. -/
def Leaf.isEnabledCache (m : Leaf) : Bool := m.type == .cache && decide (0 < m.cacheTTL)

def Leaf.isIPPolicy (m : Leaf) : Bool := m.type == .allowIPs || m.type == .denyIPs

namespace Chain

def middlewareLeaves : Chain → List Leaf
  | .nil => []
  | .leaf m rest => m :: rest.middlewareLeaves
  | .inOrder group rest | .onListeners _ group rest => group.middlewareLeaves ++ rest.middlewareLeaves

def middlewareWithoutCache : Chain → Chain
  | .nil => .nil
  | .leaf m rest =>
    if m.type = .cache then rest.middlewareWithoutCache else .leaf m rest.middlewareWithoutCache
  | .inOrder group rest => .inOrder group.middlewareWithoutCache rest.middlewareWithoutCache
  | .onListeners names group rest =>
    .onListeners names group.middlewareWithoutCache rest.middlewareWithoutCache

def middlewareForListener (name : Bytes) : Chain → List Leaf
  | .nil => []
  | .leaf m rest => m :: rest.middlewareForListener name
  | .inOrder group rest => group.middlewareForListener name ++ rest.middlewareForListener name
  | .onListeners names group rest =>
    if names.contains name then group.middlewareForListener name ++ rest.middlewareForListener name
    else rest.middlewareForListener name

/-- The listener names that `validateResolvedMiddlewares` collects. -/
def listenerNames : Chain → List Bytes
  | .nil => []
  | .leaf _ rest => rest.listenerNames
  | .inOrder group rest => group.listenerNames ++ rest.listenerNames
  | .onListeners names group rest => names ++ group.listenerNames ++ rest.listenerNames

/-- Every `OnListeners` group names a listener. -/
def Named : Chain → Prop
  | .nil => True
  | .leaf _ rest => rest.Named
  | .inOrder group rest => group.Named ∧ rest.Named
  | .onListeners names group rest => names ≠ [] ∧ group.Named ∧ rest.Named

end Chain

/-! ### The checks of a chain -/

/-- Why a chain is refused, with the positions the message names. -/
inductive ChainError where
  | modifiesContentEncoding (i : ℕ)
  | ipPolicyAfterCache (i cache : ℕ)
  | requestIDAfterCache (i cache : ℕ)
  | badRequestIDOutput (i : ℕ)
  | secondRequestID (i owner : ℕ)
  | replacesCredentials (i : ℕ)
deriving DecidableEq

/-- The header that a middleware writes, where `validateMiddlewareRepresentation` looks at it. -/
def Leaf.writtenHeader (m : Leaf) : Option Bytes :=
  if m.type = .requestID then some m.requestIDHeader
  else if isResponseHeaderOp m.type then some m.headerName
  else none

def Leaf.compresses (m : Leaf) : Bool :=
  m.type == .compress && m.compressAlgos != [] || m.type == .encodeResponse

def validateMiddlewareRepresentation (mws : List Leaf) : Option ChainError :=
  if mws.any Leaf.compresses then
    (mws.findIdx? fun m => m.writtenHeader.any fun name => equalFold name (lit "Content-Encoding")).map
      .modifiesContentEncoding
  else none

/-- The loop of `validateCachePolicyOrder`. -/
def cachePolicyOrderLoop (i : ℕ) (cacheIndex : Option ℕ) : List Leaf → Option ChainError
  | [] => none
  | mw :: rest =>
    let cacheIndex := if mw.isEnabledCache && cacheIndex.isNone then some i else cacheIndex
    match cacheIndex with
    | none => cachePolicyOrderLoop (i + 1) none rest
    | some cache =>
      if mw.isIPPolicy then some (.ipPolicyAfterCache i cache)
      else if mw.type = .requestID then some (.requestIDAfterCache i cache)
      else cachePolicyOrderLoop (i + 1) (some cache) rest

def validateCachePolicyOrder (mws : List Leaf) : Option ChainError := cachePolicyOrderLoop 0 none mws

def requestIDForbiddenOutputHeaders : List (Bytes × List Bytes) := [
  (lit "framing and connection", [
    lit "Content-Length", lit "Transfer-Encoding", lit "Trailer", lit "Connection", lit "Upgrade",
    lit "TE", lit "Keep-Alive", lit "Proxy-Connection", lit "Expect", lit "Max-Forwards",
    lit "Sec-WebSocket-Accept", lit "Sec-WebSocket-Key", lit "Sec-WebSocket-Version",
    lit "Sec-WebSocket-Extensions", lit "Sec-WebSocket-Protocol"]),
  (lit "representation", [
    lit "Content-Encoding", lit "Content-Type", lit "Content-Range", lit "Content-Disposition",
    lit "Content-Language", lit "Content-Location", lit "Accept", lit "Accept-Encoding",
    lit "Accept-Language", lit "Accept-Charset", lit "Accept-Ranges", lit "Range", lit "Content-MD5",
    lit "Digest", lit "Content-Digest", lit "Repr-Digest", lit "Want-Digest", lit "Want-Content-Digest",
    lit "Want-Repr-Digest"]),
  (lit "validators", [
    lit "ETag", lit "Last-Modified", lit "If-Match", lit "If-None-Match", lit "If-Modified-Since",
    lit "If-Unmodified-Since", lit "If-Range"]),
  (lit "caching", [
    lit "Cache-Control", lit "Vary", lit "Expires", lit "Age", lit "Date", lit "Pragma", lit "Warning",
    lit "CDN-Cache-Control", lit "Surrogate-Control"]),
  (lit "state and security", [
    lit "Set-Cookie", lit "Set-Cookie2", lit "Location", lit "Refresh", lit "Retry-After",
    lit "Strict-Transport-Security", lit "Content-Security-Policy",
    lit "Content-Security-Policy-Report-Only", lit "WWW-Authenticate", lit "Proxy-Authenticate",
    lit "Proxy-Authorization", lit "Authentication-Info", lit "Proxy-Authentication-Info", lit "Alt-Svc",
    lit "Alt-Used", lit "Clear-Site-Data", lit "X-Content-Type-Options", lit "X-Frame-Options",
    lit "X-XSS-Protection", lit "Referrer-Policy", lit "Permissions-Policy",
    lit "Cross-Origin-Opener-Policy", lit "Cross-Origin-Opener-Policy-Report-Only",
    lit "Cross-Origin-Embedder-Policy", lit "Cross-Origin-Embedder-Policy-Report-Only",
    lit "Cross-Origin-Resource-Policy", lit "Origin", lit "Access-Control-Allow-Origin",
    lit "Access-Control-Allow-Credentials", lit "Access-Control-Allow-Headers",
    lit "Access-Control-Allow-Methods", lit "Access-Control-Expose-Headers", lit "Access-Control-Max-Age",
    lit "Access-Control-Allow-Private-Network", lit "Access-Control-Request-Headers",
    lit "Access-Control-Request-Method", lit "Access-Control-Request-Private-Network", lit "Host",
    lit "Forwarded", lit "X-Forwarded-For", lit "X-Forwarded-Host", lit "X-Forwarded-Proto",
    lit "X-Forwarded-Port", lit "X-Real-IP"])]

def defaultRequestIDHeader : Bytes := lit "X-Request-Id"

/-- The header a request identity is written to. -/
def Leaf.identityHeader (m : Leaf) : Bytes :=
  if m.requestIDHeader = [] then defaultRequestIDHeader else m.requestIDHeader

/-- `normalizeRequestIDOutputHeader`: `none` for an error. -/
def normalizeRequestIDOutputHeader (name : Bytes) : Option Bytes :=
  let name := if name = [] then defaultRequestIDHeader else name
  if !name.all tokenByte then none
  else
    let name := canonicalHeaderKey name
    if requestIDForbiddenOutputHeaders.any fun category => category.2.any fun reserved => equalFold name reserved
    then none
    else some name

/-- The loop of `validateRequestIDOwnership`. -/
def requestIDOwnershipLoop (i : ℕ) (owner : Option ℕ) : List Leaf → Option ChainError
  | [] => none
  | mw :: rest =>
    if mw.type ≠ .requestID then requestIDOwnershipLoop (i + 1) owner rest
    else if normalizeRequestIDOutputHeader mw.requestIDHeader = none then some (.badRequestIDOutput i)
    else
      match owner with
      | some j => some (.secondRequestID i j)
      | none => requestIDOwnershipLoop (i + 1) (some i) rest

def validateRequestIDOwnership (mws : List Leaf) : Option ChainError := requestIDOwnershipLoop 0 none mws

def basicAuthMappedInput (m : Leaf) : Bytes :=
  if m.type = .requestID ∧ equalFold m.requestIDHeader (lit "Authorization") = true then m.requestIDFromHeader
  else []

/-- The middlewares before the last `BasicAuth`, `none` if there is none. -/
def beforeLastAuth : List Leaf → Option (List Leaf)
  | [] => none
  | mw :: rest =>
    match beforeLastAuth rest with
    | some before => some (mw :: before)
    | none => if mw.type = .basicAuth then some [] else none

/-- The header fields that feed the credentials, in lower case. -/
def credentialInputs (before : List Leaf) : List Bytes :=
  toLower (lit "Authorization") ::
    ((before.map basicAuthMappedInput).filter (· ≠ [])).map toLower

def validateBasicAuthCredentials (mws : List Leaf) : Option ChainError :=
  match beforeLastAuth mws with
  | none => none
  | some before =>
    (mws.findIdx? fun m => isRequestHeaderOp m.type && (credentialInputs before).contains (toLower m.headerName)).map
      .replacesCredentials

/-- The checks of one chain. -/
def validateChain (mws : List Leaf) : Option ChainError :=
  (((validateMiddlewareRepresentation mws).or (validateCachePolicyOrder mws)).or
    (validateRequestIDOwnership mws)).or (validateBasicAuthCredentials mws)

/-- `validateResolvedMiddlewares`; the source ranges over the names in no fixed order. -/
def validateResolvedMiddlewares (mws : Chain) : Option ChainError :=
  ([] :: mws.listenerNames).findSome? fun name => validateChain (mws.middlewareForListener name)

/-! ### Resolving -/

/-- A `[]Middleware` of the configuration. -/
inductive Declared (μ : Type) where
  | nil
  | leaf (m : μ) (rest : Declared μ)
  | inOrder (values rest : Declared μ)
  | onListeners (names : List Bytes) (values rest : Declared μ)

inductive ResolveError (ε : Type) where
  | leaf (e : ε)
  | noListeners
  | refused (e : ChainError)
  | entry (i : ℕ) (e : ResolveError ε)
  | inOrder (e : ResolveError ε)

section Resolve

variable {μ ε : Type} (resolve : μ → Except ε Leaf)

/-- The end of `resolveMiddlewares`. -/
def accept (out : Chain) : Except (ResolveError ε) Chain :=
  match validateResolvedMiddlewares out with
  | some e => .error (.refused e)
  | none => .ok out

/-- The loop of `resolveMiddlewares`, with `resolve` of the two groups. -/
def resolveEach (i : ℕ) : Declared μ → Except (ResolveError ε) Chain
  | .nil => .ok .nil
  | .leaf m rest => do
    let m ← (resolve m).mapError fun e => .entry i (.leaf e)
    return .leaf m (← resolveEach (i + 1) rest)
  | .inOrder values rest => do
    let group ← (resolveEach 0 values >>= accept).mapError fun e => .entry i (.inOrder e)
    return .inOrder group (← resolveEach (i + 1) rest)
  | .onListeners names values rest => do
    if names = [] then .error (.entry i .noListeners)
    else
      let group ← (resolveEach 0 values >>= accept).mapError (.entry i)
      return .onListeners names group (← resolveEach (i + 1) rest)

def resolveMiddlewares (mws : Declared μ) : Except (ResolveError ε) Chain := resolveEach resolve 0 mws >>= accept

end Resolve

/-! ### The handlers of a route -/

def listenerMatches (names : List Bytes) (name : Bytes) : Bool := names == [] || names.contains name

/-- What the constructors of handlers make of a handler. -/
structure Wrapping (H : Type) where
  applyMiddleware : Leaf → H → H
  /-- the middlewares of the list itself, whose header operations are hoisted -/
  withHeaderMiddleware : List Leaf → H → H
  withPathRewrite : List Leaf → H → H
  /-- `conditionalListenerMiddleware`: the names, the handler of the group and the next handler -/
  onListeners : List Bytes → H → H → H

def routeWritesCacheCredentials (mws : List Leaf) : Bool :=
  mws.any fun m =>
    let name :=
      match m.type with
      | .requestID => m.requestIDHeader
      | .setRequestHeader | .addRequestHeader => m.headerName
      | _ => []
    equalFold name (lit "Authorization") || equalFold name (lit "Cookie")

def routeWritesCacheAge (mws : List Leaf) : Bool :=
  mws.any fun m =>
    isResponseHeaderOp m.type && (equalFold m.headerName (lit "Age") || equalFold m.headerName (lit "Date"))

/-- Whether the middlewares of a group keep the route from caching. -/
def Chain.cacheBypass (mws : Chain) : Bool :=
  routeWritesCacheCredentials mws.middlewareLeaves || routeWritesCacheAge mws.middlewareLeaves

/-- The middlewares a list holds itself, outside its groups. -/
def Chain.own : Chain → List Leaf
  | .nil => []
  | .leaf m rest => m :: rest.own
  | .inOrder _ rest | .onListeners _ _ rest => rest.own

/-- The number of entries of a list and of its groups. -/
def Chain.size : Chain → ℕ
  | .nil => 0
  | .leaf _ rest => rest.size + 1
  | .inOrder group rest | .onListeners _ group rest => group.size + rest.size + 1

theorem Chain.size_middlewareWithoutCache (mws : Chain) : mws.middlewareWithoutCache.size ≤ mws.size := by
  induction mws with
  | nil => exact Nat.le_refl _
  | leaf m rest ih =>
    rw [middlewareWithoutCache]
    split
    · exact Nat.le_succ_of_le ih
    · exact Nat.succ_le_succ ih
  | inOrder group rest ihg ihr =>
    simp only [middlewareWithoutCache, size]
    omega
  | onListeners names group rest ihg ihr =>
    simp only [middlewareWithoutCache, size]
    omega

/-- The group that `orderedMiddlewareHandler` wraps. -/
def Chain.grouped (bypassCache : Bool) (group : Chain) : Chain :=
  if bypassCache then group.middlewareWithoutCache else group

theorem Chain.size_grouped (bypassCache : Bool) (group : Chain) : (group.grouped bypassCache).size ≤ group.size := by
  rw [grouped]
  split
  · exact group.size_middlewareWithoutCache
  · exact Nat.le_refl _

section Wrap

variable {H : Type} (W : Wrapping H)

mutual

def wrapRouteMiddleware (mws : Chain) (base : H) : H :=
  W.withHeaderMiddleware mws.own (W.withPathRewrite mws.own (wrapEach mws.cacheBypass mws base))
termination_by (mws.size, 1)

/-- The loop of `wrapRouteMiddleware`, from the last middleware to the first. -/
def wrapEach (cacheBypass : Bool) (mws : Chain) (base : H) : H :=
  match mws with
  | .nil => base
  | .leaf m rest =>
    let next := wrapEach cacheBypass rest base
    if cacheBypass && m.type == .cache then next else W.applyMiddleware m next
  | .inOrder group rest =>
    -- `orderedMiddlewareHandler`
    wrapRouteMiddleware (group.grouped cacheBypass) (wrapEach cacheBypass rest base)
  | .onListeners names group rest =>
    let next := wrapEach cacheBypass rest base
    W.onListeners names (wrapRouteMiddleware (group.grouped cacheBypass) next) next
termination_by (mws.size, 0)
decreasing_by
  all_goals simp only [Prod.lex_def, Chain.size]
  all_goals first
    | omega
    | exact Or.inl (Nat.lt_of_le_of_lt (Chain.size_grouped cacheBypass group) (by omega))

end

/-- The rule of invariants: what every constructor keeps holds of the handler of every tree. -/
theorem wrapEach_invariant {P : H → Prop} (happly : ∀ m next, P next → P (W.applyMiddleware m next))
    (hheader : ∀ own next, P next → P (W.withHeaderMiddleware own next))
    (hpath : ∀ own next, P next → P (W.withPathRewrite own next))
    (hlisteners : ∀ names handler next, P handler → P next → P (W.onListeners names handler next)) (n : ℕ) :
    ∀ (mws : Chain) (bypass : Bool) (base : H), mws.size ≤ n → P base → P (wrapEach W bypass mws base) := by
  induction n with
  | zero =>
    intro mws bypass base hsize hbase
    cases mws with
    | nil =>
      rw [wrapEach]
      exact hbase
    | leaf m rest => exact absurd hsize (Nat.not_succ_le_zero _)
    | inOrder group rest => exact absurd hsize (Nat.not_succ_le_zero _)
    | onListeners names group rest => exact absurd hsize (Nat.not_succ_le_zero _)
  | succ n ih =>
    intro mws bypass base hsize hbase
    have hgroup : ∀ (group : Chain) (next : H), group.size ≤ n → P next →
        P (wrapRouteMiddleware W (group.grouped bypass) next) := by
      intro group next hsize hnext
      rw [wrapRouteMiddleware]
      exact hheader _ _ (hpath _ _ (ih _ _ next ((Chain.size_grouped bypass group).trans hsize) hnext))
    cases mws with
    | nil =>
      rw [wrapEach]
      exact hbase
    | leaf m rest =>
      have hrest := ih rest bypass base (Nat.le_of_succ_le_succ hsize) hbase
      rw [wrapEach]
      split
      · exact hrest
      · exact happly m _ hrest
    | inOrder group rest =>
      simp only [Chain.size] at hsize
      rw [wrapEach]
      exact hgroup group _ (by omega) (ih rest bypass base (by omega) hbase)
    | onListeners names group rest =>
      simp only [Chain.size] at hsize
      have hrest := ih rest bypass base (by omega) hbase
      rw [wrapEach]
      exact hlisteners names _ _ (hgroup group _ (by omega) hrest) hrest

theorem wrapRouteMiddleware_invariant {P : H → Prop} (happly : ∀ m next, P next → P (W.applyMiddleware m next))
    (hheader : ∀ own next, P next → P (W.withHeaderMiddleware own next))
    (hpath : ∀ own next, P next → P (W.withPathRewrite own next))
    (hlisteners : ∀ names handler next, P handler → P next → P (W.onListeners names handler next))
    (mws : Chain) {base : H} (hbase : P base) : P (wrapRouteMiddleware W mws base) := by
  rw [wrapRouteMiddleware]
  exact hheader _ _ (hpath _ _
    (wrapEach_invariant W happly hheader hpath hlisteners mws.size mws _ base (Nat.le_refl _) hbase))

end Wrap

/-- The handlers that list the middlewares a request on a listener passes: hoisted middlewares have no builder
and pass the request through. -/
def tracing : Wrapping (Bytes → List Leaf) where
  applyMiddleware m next := fun name => if m.isHoisted then next name else m :: next name
  withHeaderMiddleware own next := fun name => own.filter Leaf.isHeaderOp ++ next name
  withPathRewrite own next := fun name => own.filter Leaf.isPathOp ++ next name
  onListeners names handler next := fun name => if listenerMatches names name then handler name else next name

end Statute.Middleware
