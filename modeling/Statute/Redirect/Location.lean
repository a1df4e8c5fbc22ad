import Statute.Base.CleanPath
import Statute.Provider.Dispatch

/-!
# Redirect routes

The redirect templates of `redirect.go`: their resolution, their expansion from a request, and the
`Location` that `redirectRouteHandler` hands to `http.Redirect`, which rebases a relative one on the
directory of the escaped request path.

A template that does not start with a scheme is relative: its expansion is made rooted or prefixed
with `./` before `http.Redirect` sees it.  The errors of the resolution carry their data; their
quoted texts are left out.
-/

namespace Statute.Redirect

open Statute.Base Statute.Provider

/-! ### Templates -/

/-- The whitelisted placeholders. -/
inductive Placeholder where
  | requestURI
  | path
  | query
  | host
deriving DecidableEq, Repr

def Placeholder.ofName (name : Bytes) : Option Placeholder :=
  if name = lit "request_uri" then some .requestURI
  else if name = lit "path" then some .path
  else if name = lit "query" then some .query
  else if name = lit "host" then some .host
  else none

/-- `redirectSegment`. -/
inductive Segment where
  | literal (text : Bytes)
  | placeholder (p : Placeholder)
deriving DecidableEq

/-- What `resolveRedirect` refuses a declaration for. -/
inductive RedirectError where
  /-- target is empty -/
  | emptyTarget
  /-- header value: invalid character -/
  | invalidCharacter (c : UInt8)
  /-- unclosed placeholder -/
  | unclosedPlaceholder (rest : Bytes)
  /-- unknown placeholder (allowed: request_uri, path, query, host) -/
  | unknownPlaceholder (text : Bytes)
  /-- query requires an unambiguous redirect authority and path or '?' boundary -/
  | ambiguousAuthority
  /-- query cannot appear in a redirect authority -/
  | queryInAuthority
  /-- query requires a nonempty redirect authority before a path or '?' boundary -/
  | emptyAuthority
  /-- status is not a redirect status -/
  | notRedirectStatus (status : ℕ)
deriving DecidableEq

def parseRedirectTarget (target : Bytes) : Except RedirectError (List Segment) :=
  if target = [] then .ok []
  else
    match _hopen : splitAtByte (ch '\x7b') target with
    | none => .ok [.literal target]
    | some (before, rest) =>
      match _hclose : splitAtByte (ch '\x7d') rest with
      | none => .error (.unclosedPlaceholder (ch '\x7b' :: rest))
      | some (name, after) =>
        match Placeholder.ofName name with
        | none => .error (.unknownPlaceholder (ch '\x7b' :: name ++ [ch '\x7d']))
        | some p =>
          (parseRedirectTarget after).map (fun segs =>
            (if before = [] then [] else [.literal before]) ++ .placeholder p :: segs)
termination_by target.length
decreasing_by
  exact (splitAtByte_length _hclose).trans (splitAtByte_length _hopen)

/-- `parse.HeaderValue`: control bytes other than the tab are refused. -/
def headerValue (s : Bytes) : Except RedirectError Unit :=
  match s.find? (fun c => (c < 32 && c != 9) || c == 127) with
  | some c => .error (.invalidCharacter c)
  | none => .ok ()

/-- The segment loop of `validateRedirectAuthority`; `skip` is what the first literal drops. -/
def authorityLoop : Option ℕ → Bool → List Segment → Except RedirectError Unit
  | _, _, [] => .error .emptyAuthority
  | _, _, .placeholder .query :: _ => .error .queryInAuthority
  | _, hasHost, .placeholder .path :: _ => if hasHost then .ok () else .error .emptyAuthority
  | _, hasHost, .placeholder .requestURI :: _ => if hasHost then .ok () else .error .emptyAuthority
  | _, _, .placeholder .host :: rest => authorityLoop none true rest
  | skip, hasHost, .literal text :: rest =>
    let literal := match skip with
      | some n => (cutPrefix (text.drop n) (lit "//")).1
      | none => text
    match literal.findIdx? (fun c => (lit "/?#").contains c) with
    | some boundary => if hasHost || 0 < boundary then .ok () else .error .emptyAuthority
    | none => authorityLoop none (hasHost || literal != []) rest

def validateRedirectAuthority (target : Bytes) (segs : List Segment) : Except RedirectError Unit :=
  match schemeLength target with
  | none => .ok ()
  | some n =>
    if segs.contains (.placeholder .query) = false then .ok ()
    else if hasPrefix (target.drop n) (lit "//") = false then .error .ambiguousAuthority
    else authorityLoop (some n) false segs

def redirectStatuses : List ℕ := [301, 302, 303, 307, 308]

/-- `resolved.Redirect`. -/
structure ResolvedRedirect where
  target : Bytes
  status : ℕ
  nonGETStatus : ℕ := 0
deriving DecidableEq

def resolveRedirect (target : Bytes) (status : ℕ) : Except RedirectError ResolvedRedirect := do
  if target = [] then throw .emptyTarget
  headerValue target
  let segs ← parseRedirectTarget target
  validateRedirectAuthority target segs
  if redirectStatuses.contains status = false then throw (.notRedirectStatus status)
  return { target := target, status := status }

/-! ### Requests -/

/-- The URL of a request with a path. -/
structure Url where
  path : Bytes
  rawPath : Bytes := []
  rawQuery : Bytes := []
  forceQuery : Bool := false

/-- `URL.RequestURI` of a URL with a path. -/
def Url.requestURI (u : Url) : Bytes :=
  let escaped := escapedPath u.path u.rawPath
  (if escaped = [] then lit "/" else escaped) ++
    (if u.forceQuery ∨ u.rawQuery ≠ [] then ch '?' :: u.rawQuery else [])

/-- What a redirect route reads of a request. -/
structure Request where
  method : Bytes := lit "GET"
  host : Bytes := []
  url : Url

/-- The bytes `net/http` accepts in a `Host` header. -/
def validHostByte (c : UInt8) : Bool :=
  (48 ≤ c && c ≤ 57) || (65 ≤ c && c ≤ 90) || (97 ≤ c && c ≤ 122) ||
    (lit "!$%&'()*+,-.:;=[]_~").contains c

def validHostHeader (host : Bytes) : Bool := host.all validHostByte

/-! ### The Location header -/

/-- The text of one segment. -/
def Segment.expand (r : Request) : Segment → Bytes
  | .literal text => text
  | .placeholder .requestURI => r.url.requestURI
  | .placeholder .path => escapedPath r.url.path r.url.rawPath
  | .placeholder .query => r.url.rawQuery
  | .placeholder .host => stripPort r.host

/-- The substitution loop of `redirectRouteHandler`. -/
def expand (segs : List Segment) (r : Request) : Bytes := segs.flatMap (Segment.expand r)

/-- A slash or a backslash. -/
def isSlash (c : UInt8) : Bool := c == ch '/' || c == ch '\\'

def safeRedirectLocation : Bytes → Bytes
  | a :: b :: rest =>
    if a = ch '/' ∧ isSlash b = true then ch '/' :: (a :: b :: rest).dropWhile isSlash
    else a :: b :: rest
  | loc => loc

/-- Backslashes as `%5C`. -/
def escapeBackslashes (s : Bytes) : Bytes :=
  s.flatMap (fun c => if c = ch '\\' then lit "%5C" else [c])

/-- The relative branch of `redirectRouteHandler`: backslashes before the query are escaped. -/
def escapePathPart (loc : Bytes) : Bytes :=
  match cut loc (ch '?') with
  | (pathPart, query, hasQuery) =>
    escapeBackslashes pathPart ++ (if hasQuery then ch '?' :: query else [])

/-- The `rooted` test of `redirectRouteHandler`. -/
def isRootedPath (loc : Bytes) : Bool :=
  hasPrefix loc (lit "/") && !hasPrefix loc (lit "//") && !hasPrefix loc (lit "/\\")

/-- The location `redirectRouteHandler` gives to `http.Redirect`. -/
def redirectLocation (relative : Bool) (expanded : Bytes) : Bytes :=
  let loc := safeRedirectLocation expanded
  if relative then
    let loc := escapePathPart loc
    if isRootedPath loc then loc else lit "./" ++ loc
  else loc

/-- The directory of the escaped request path. -/
def requestDir (path : Bytes) : Bytes := pathDir (if path = [] then lit "/" else path)

/-- A byte before the query. -/
def beforeQuery (c : UInt8) : Bool := c != ch '?'

/-- The rebasing of `http.Redirect`. -/
def rebase (path url : Bytes) : Bytes :=
  let url := if hasPrefix url (lit "/") then url else requestDir path ++ url
  cleanSlash (url.takeWhile beforeQuery) ++ url.dropWhile beforeQuery

def hexEscapeNonASCII (s : Bytes) : Bytes :=
  s.flatMap (fun c => if 128 ≤ c then percent false c else [c])

/-- The `Location` of `http.Redirect`: a reference that parses without scheme and host is rebased. -/
def httpRedirect (path url : Bytes) : Bytes :=
  hexEscapeNonASCII (if hasScheme url || !urlParses url then url else rebase path url)

/-- The segments of a target; an accepted one parses. -/
def ResolvedRedirect.segments (rd : ResolvedRedirect) : List Segment :=
  match parseRedirectTarget rd.target with
  | .ok segs => segs
  | .error _ => []

/-- `redirectRouteHandler`: the status and the `Location` header. -/
def redirectRouteHandler (rd : ResolvedRedirect) (r : Request) : ℕ × Bytes :=
  let loc := redirectLocation (!hasScheme rd.target) (expand rd.segments r)
  let status := if r.method ≠ lit "GET" ∧ rd.nonGETStatus ≠ 0 then rd.nonGETStatus else rd.status
  (status, httpRedirect (escapedPath r.url.path r.url.rawPath) loc)

end Statute.Redirect
