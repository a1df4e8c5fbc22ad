import Statute.Base.CleanPath

/-!
# Path rewrites

`pathrewrite.go` and `request_path.go`: the path of a request is carried twice, decoded in `Path` and,
where the default escaping would not do, as written in `RawPath`.  The rewrites of a group are hoisted
to its edge and applied in order; the rewrites of the escaped path run at their own position and may
answer the request instead.

A regular expression is left open: it is any test and any replacement.
-/

namespace Statute.Rewrite

open Statute.Base

/-- The fields of `url.URL` that rewrites touch. -/
structure Url where
  path : Bytes
  rawPath : Bytes := []
  rawQuery : Bytes := []
  forceQuery : Bool := false
deriving DecidableEq

namespace Url

def escapedPath (u : Url) : Bytes := Base.escapedPath u.path u.rawPath

def setPath (u : Url) (p : Bytes) : Url :=
  match unescape p with
  | none => u
  | some path => { u with path := path, rawPath := if p = escapePath path then [] else p }

def joinPath (u : Url) : Url :=
  let elem := u.escapedPath
  if hasPrefix elem (lit "/") then u.setPath (cleanSlash elem)
  else
    let rooted := lit "/" ++ elem
    let p := (pathClean rooted).drop 1
    u.setPath (if hasSuffix rooted (lit "/") && !hasSuffix p (lit "/") then p ++ lit "/" else p)

end Url

structure Regexp where
  matchString : Bytes → Bool
  replaceAllString : Bytes → Bytes → Bytes

/-! ### The rewrites of a group's edge -/

def isHexDigit (c : UInt8) : Bool := (hexDigit c).isSome

def rawTailFromDecodedOffset : Bytes → ℕ → Option Bytes
  | raw, 0 => some raw
  | [], _ + 1 => none
  | c :: rest, n + 1 =>
    if c = ch '%' then
      match rest with
      | a :: b :: rest' =>
        if isHexDigit a && isHexDigit b then rawTailFromDecodedOffset rest' n else none
      | _ => none
    else rawTailFromDecodedOffset rest n

def isEncodedSlash : Bytes → Bool
  | a :: b :: c :: _ => a == ch '%' && b == ch '2' && (c == ch 'F' || c == ch 'f')
  | _ => false

def strippedRawRemainder (raw : Bytes) (n : ℕ) : Bytes :=
  match rawTailFromDecodedOffset raw n with
  | none => []
  | some tail =>
    if hasPrefix tail (lit "/") then tail
    else if isEncodedSlash tail then lit "/" ++ tail.drop 3
    else []

def stripPathPrefix (u : Url) (pre : Bytes) : Url :=
  if u.path = pre then { u with path := lit "/", rawPath := [] }
  else if hasPrefix u.path (pre ++ lit "/") then
    let u := { u with path := u.path.drop pre.length }
    if u.rawPath ≠ [] then
      let rest := strippedRawRemainder u.rawPath pre.length
      { u with rawPath := if rest = u.path then [] else rest }
    else u
  else u

def addPathPrefix (u : Url) (pre : Bytes) : Url :=
  { u with
    path := pre ++ u.path
    rawPath := if u.rawPath ≠ [] then ({ path := pre } : Url).escapedPath ++ u.rawPath else u.rawPath }

def replaceURLPath (u : Url) (replacement query : Bytes) (querySet : Bool) : Url :=
  match unescape replacement with
  | none => u
  | some decoded =>
    let u := { u with path := decoded, rawPath := if replacement ≠ decoded then replacement else [] }
    if querySet then { u with rawQuery := query, forceQuery := false } else u

def rewriteURLPath (u : Url) (re : Regexp) (replacement : Bytes) : Url :=
  let out := re.replaceAllString u.path replacement
  let out := if out = [] then lit "/" else out
  let out := if !hasPrefix out (lit "/") then lit "/" ++ out else out
  if out = u.path then u else { u with path := out, rawPath := [] }

inductive PathRewrite where
  | stripPrefix (pre : Bytes)
  | addPrefix (pre : Bytes)
  | replacePath (replacement query : Bytes) (querySet : Bool)
  | rewritePath (re : Regexp) (replacement : Bytes)

/-- `compilePathOp`: what a rewrite does to the URL. -/
def PathRewrite.apply : PathRewrite → Url → Url
  | .stripPrefix pre, u => stripPathPrefix u pre
  | .addPrefix pre, u => addPathPrefix u pre
  | .replacePath replacement query querySet, u => replaceURLPath u replacement query querySet
  | .rewritePath re replacement, u => rewriteURLPath u re replacement

/-- `withPathRewrite`: the URL the next handler gets. -/
def withPathRewrite (ops : List PathRewrite) (u : Url) : Url :=
  if ops = [] then u
  else
    let u := ops.foldl (fun u op => op.apply u) u
    if u.path = [] then { u with path := lit "/", rawPath := [] } else u

/-! ### What the resolver accepts -/

/-- `strings.TrimRight` of one byte. -/
def trimRightByte (s : Bytes) (c : UInt8) : Bytes := (s.reverse.dropWhile (· == c)).reverse

/-- `normalizePathPrefix`: `none` for an error. -/
def normalizePathPrefix (pre : Bytes) : Option Bytes :=
  if containsAny pre (lit "?#%") then none
  else
    let p := trimRightByte pre (ch '/')
    match p with
    | a :: b :: _ =>
      if a ≠ ch '/' then none else if b = ch '/' ∨ b = ch '\\' then none else some p
    | _ => none

def invalidQueryByte (c : UInt8) : Bool := c ≤ 32 || c == 127

/-- `splitReplacePath`: `none` for an error. -/
def splitReplacePath (target : Bytes) : Option (Bytes × Bytes × Bool) :=
  if containsByte target (ch '#') then none
  else
    match cut target (ch '?') with
    | (path, query, querySet) =>
      if !hasPrefix path (lit "/") then none
      else if hasPrefix path (lit "//") || hasPrefix path (lit "/\\") then none
      else if unescape path = none then none
      else if query.any invalidQueryByte then none
      else some (path, query, querySet)

/-- The rewrite comes from a configuration that resolved. -/
def PathRewrite.Resolved : PathRewrite → Prop
  | .stripPrefix pre | .addPrefix pre => ∃ written, normalizePathPrefix written = some pre
  | .replacePath replacement query querySet =>
    ∃ target, splitReplacePath target = some (replacement, query, querySet)
  | .rewritePath _ _ => True

/-! ### The rewrites of the escaped path -/

/-- A request, as far as its path is concerned. -/
structure Request where
  url : Url
  header : Header
deriving DecidableEq

/-- What a middleware on the escaped path does. -/
inductive PathPolicyKind where
  | replaceEscapedPath (replacement : Bytes)
  | rewriteEscapedPath (re : Regexp) (replacement : Bytes)
  | prefixPath (pre : Bytes)
  | stripBytePrefixes (prefixes : List Bytes) (forceSlash : Bool)

/-- A resolved middleware on the escaped path. -/
structure PathPolicy where
  kind : PathPolicyKind
  recordOriginal : Bool := false

/-- A text a configuration may hold: no line break and no NUL. -/
def plainText (s : Bytes) : Bool := !containsAny s [13, 10, 0]

/-- `requestPathMW.resolve` accepts the middleware. -/
def PathPolicy.Resolved (m : PathPolicy) : Prop :=
  match m.kind with
  | .replaceEscapedPath replacement => plainText replacement = true ∧ unescape replacement ≠ none
  | .rewriteEscapedPath _ replacement => plainText replacement = true
  | .prefixPath pre => plainText pre = true ∧ pre ≠ []
  | .stripBytePrefixes prefixes _ => ∀ p ∈ prefixes, plainText p = true

def rootRequestPath (path : Bytes) (force : Bool) : Bytes :=
  if force then lit "/" ++ (cutPrefix path (lit "/")).1
  else
    match path with
    | [] => []
    | c :: rest => if c ≠ ch '/' then lit "/" ++ c :: rest else c :: rest

/-- Note down a header of the original, where the policy says so. -/
def PathPolicy.record (m : PathPolicy) (name value : Bytes) (h : Header) : Header :=
  if m.recordOriginal then h.add name value else h

/-- `stripRequestPrefixes`: whether to check the result, and the request; `none` for an error. -/
def stripRequestPrefixes (m : PathPolicy) (prefixes : List Bytes) (force : Bool) (r : Request) :
    Option (Bool × Request) :=
  match prefixes.find? fun pre => hasPrefix r.url.path pre with
  | none => some (false, r)
  | some pre =>
    let path := rootRequestPath (r.url.path.drop pre.length) force
    let header := m.record (lit "X-Forwarded-Prefix") pre r.header
    if r.url.rawPath ≠ [] then
      match rawTailFromDecodedOffset r.url.rawPath pre.length with
      | none => none
      | some tail =>
        some (true, ⟨{ r.url with path := path, rawPath := rootRequestPath tail force }, header⟩)
    else some (true, ⟨{ r.url with path := path }, header⟩)

def applyRequestPath (m : PathPolicy) (r : Request) (current : Bytes) : Option (Bool × Request) :=
  match m.kind with
  | .replaceEscapedPath replacement =>
    (unescape replacement).map fun path =>
      (false, ⟨{ r.url with rawPath := replacement, path := path },
        m.record (lit "X-Replaced-Path") current r.header⟩)
  | .rewriteEscapedPath re replacement =>
    let raw := re.replaceAllString current replacement
    (unescape raw).map fun path =>
      (true, ⟨{ r.url with rawPath := raw, path := path },
        m.record (lit "X-Replaced-Path") current r.header⟩)
  | .prefixPath pre =>
    let u := addPathPrefix r.url pre
    some (false, { r with url := { u with
      path := rootRequestPath u.path false
      rawPath := if u.rawPath ≠ [] then rootRequestPath u.rawPath false else u.rawPath } })
  | .stripBytePrefixes prefixes force => stripRequestPrefixes m prefixes force r

/-- `requestPathNormalized`: whether cleaning leaves the path, and the URL it leaves. -/
def requestPathNormalized (u : Url) : Bool × Url :=
  if u.path = [] then (true, u) else (decide (u.path = u.joinPath.path), u.joinPath)

/-- What a middleware does with a request: answer with a status, or call the next handler. -/
inductive Outcome where
  | status (code : ℕ)
  | next (r : Request)
deriving DecidableEq

/-- The status of a failed `applyRequestPath`. -/
def PathPolicy.errorStatus (m : PathPolicy) : ℕ :=
  match m.kind with
  | .stripBytePrefixes _ _ => 400
  | _ => 500

/-- Whether the pattern of a rewrite leaves the request alone. -/
def PathPolicy.skips (m : PathPolicy) (current : Bytes) : Bool :=
  match m.kind with
  | .rewriteEscapedPath re _ => !re.matchString current
  | _ => false

def requestPathHandler (m : PathPolicy) (r : Request) : Outcome :=
  let current := if r.url.rawPath = [] then r.url.escapedPath else r.url.rawPath
  if m.skips current then .next r
  else
    match applyRequestPath m r current with
    | none => .status m.errorStatus
    | some (normalize, out) =>
      if normalize then
        match requestPathNormalized out.url with
        | (true, url) => .next { out with url := url }
        | (false, _) => .status 400
      else .next out

end Statute.Rewrite
