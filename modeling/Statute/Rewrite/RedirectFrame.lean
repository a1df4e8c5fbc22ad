import Mathlib.Data.List.TakeWhile
import Statute.Rewrite.Coherent

/-!
# Redirect middlewares that let a request pass

`redirect_middleware.go`: a redirect middleware rebuilds the URL of the request from its request URI, and
if its pattern does not match, or its expansion is the URL itself, it calls the next handler.  In the second
case the next handler gets the URL that `net/url` reads from the rebuilt text.  The rewrites of a group's
edge change `r.URL` and leave `r.RequestURI` alone; the rewrites at their own position change both.  So the
two may disagree when a redirect middleware is reached.

* `redirectsReached` — the redirect middlewares that a request reaches, each with the request it receives
  and the URL that the request URI was last set from;
* `parse_rebuilt` — what `net/url` reads from the rebuilt URL is what the request URI stands for;
* `Tracks.serve` — every stage keeps the request URI standing for the URL it was last set from;
* `redirect_frame_iff` — the redirect middlewares of a chain leave the target alone if and only if, wherever
  one of them leads back to the URL it rebuilt, the rewrites since the request URI was set left it alone.
-/

namespace Statute.Rewrite

open Statute.Base

/-! ### Request targets -/

def Url.requestURI (u : Url) : Bytes :=
  let path := if u.escapedPath = [] then lit "/" else u.escapedPath
  if u.forceQuery || u.rawQuery != [] then path ++ lit "?" ++ u.rawQuery else path

/-- A request, as far as a redirect middleware reads it. -/
structure TargetRequest where
  url : Url
  header : Header
  requestURI : Bytes
  host : Bytes
  tls : Bool := false
  method : Bytes := lit "GET"
  /-- the listener cleaned the forwarded fields, or the peer is a trusted proxy -/
  trusted : Bool := false
deriving DecidableEq

/-- The query of a URL text, split off as `net/url` does it: a lone final question mark is remembered. -/
def cutQuery (s : Bytes) : Bytes × Bytes × Bool :=
  if hasSuffix s (lit "?") && s.count (ch '?') == 1 then (s.dropLast, [], true)
  else ((cut s (ch '?')).1, (cut s (ch '?')).2.1, false)

def urlOf (path query : Bytes) (force : Bool) : Option Url :=
  (unescape path).map fun p =>
    { path := p, rawPath := if path = escapePath p then [] else path, rawQuery := query, forceQuery := force }

/-- What `url.Parse` reads after `http://` and `https://`; the test of the authority, and what it makes of
any other text, are left open. -/
structure UrlParser where
  authorityOk : Bytes → Bool
  other : Bytes → Option Url

/-- The text after the scheme of an HTTP URL. -/
def httpRest (s : Bytes) : Option Bytes :=
  if hasPrefix s (lit "http://") then some (s.drop 7)
  else if hasPrefix s (lit "https://") then some (s.drop 8)
  else none

def UrlParser.parse (N : UrlParser) (s : Bytes) : Option Url :=
  match httpRest s with
  | none => N.other s
  | some rest =>
    let (rest, frag, _) := cut rest (ch '#')
    if rest.any isCTL || (unescape frag).isNone then none
    else
      let (rest, query, force) := cutQuery rest
      if !N.authorityOk (rest.takeWhile (· != ch '/')) then none
      else urlOf (rest.dropWhile (· != ch '/')) query force

/-! ### The rebuilt URL -/

/-- `\w`. -/
def isWord (c : UInt8) : Bool := isLetter c || (48 ≤ c && c ≤ 57) || c == ch '_'

/-- The group `(\[[\w:.]+\]|[\w._-]+)?` at the start of a text, and the rest. -/
def hostGroup (s : Bytes) : Bytes × Bytes :=
  match s with
  | [] => ([], [])
  | c :: rest =>
    if c = ch '[' then
      let inner := rest.takeWhile fun c => isWord c || c == ch ':' || c == ch '.'
      match rest.dropWhile fun c => isWord c || c == ch ':' || c == ch '.' with
      | [] => ([], s)
      | d :: after => if inner != [] && d == ch ']' then (c :: inner ++ [d], after) else ([], s)
    else
      (s.takeWhile (fun c => isWord c || c == ch '.' || c == ch '-'),
        s.dropWhile (fun c => isWord c || c == ch '.' || c == ch '-'))

/-- The group `(:\d+)?` at the start of a text, and the rest. -/
def portGroup (s : Bytes) : Bytes × Bytes :=
  match s with
  | [] => ([], [])
  | c :: rest =>
    let digits := rest.takeWhile fun c => 48 ≤ c && c ≤ 57
    if c == ch ':' && digits != [] then (c :: digits, rest.dropWhile fun c => 48 ≤ c && c ≤ 57) else ([], s)

/-- The groups of `redirectAbsoluteURI`: scheme, host, port and the rest. -/
def absoluteGroups (uri : Bytes) : Option (Bytes × Bytes × Bytes × Bytes) :=
  match httpRest uri with
  | none => none
  | some rest =>
    if rest.contains 10 then none
    else
      let (host, rest) := hostGroup rest
      let (port, rest) := portGroup rest
      some (if hasPrefix uri (lit "https") then lit "https" else lit "http", host, port, rest)

def redirectHostAndPort (authority : Bytes) : Bytes × Bytes :=
  match splitHostPort authority with
  | none => (authority, [])
  | some (host, port) =>
    (if containsByte host (ch ':') then lit "[" ++ host ++ lit "]" else host, lit ":" ++ port)

def redirectStandardPort (scheme port : Bytes) : Bool :=
  scheme == lit "http" && port == lit "80" || scheme == lit "https" && port == lit "443"

def redirectForwardedProto (r : TargetRequest) : Bytes :=
  if r.trusted then r.header.get (lit "X-Forwarded-Proto") else []

def forwardedRedirectAuthority (r : TargetRequest) (scheme port : Bytes) : Bytes × Bytes :=
  let proto := redirectForwardedProto r
  let scheme :=
    if equalFold proto (lit "http") || equalFold proto (lit "ws") then lit "http"
    else if equalFold proto (lit "https") || equalFold proto (lit "wss") then lit "https"
    else scheme
  (scheme, if redirectStandardPort scheme (cutPrefix port (lit ":")).1 then [] else port)

/-- The URI `redirectRequestURL` starts from. -/
def TargetRequest.uri (r : TargetRequest) : Bytes := if r.requestURI = [] then r.url.requestURI else r.requestURI

/-- The scheme, the authority and the rest that `redirectRequestURL` joins. -/
def redirectParts (r : TargetRequest) (forwarded : Bool) : Bytes × Bytes × Bytes :=
  let (host, port) := if forwarded then redirectHostAndPort r.host else (r.host, [])
  let (scheme, host, port, uri) :=
    match absoluteGroups r.uri with
    | some (scheme, host', port', rest) =>
      (scheme, if host' ≠ [] then host' else host, if port' ≠ [] then port' else port, rest)
    | none => (lit "http", host, port, r.uri)
  let scheme := if r.tls then lit "https" else scheme
  let (scheme, port) := if forwarded then forwardedRedirectAuthority r scheme port else (scheme, port)
  (scheme, host ++ port, uri)

def redirectRequestURL (r : TargetRequest) (forwarded : Bool) : Bytes :=
  let (scheme, authority, uri) := redirectParts r forwarded
  scheme ++ lit "://" ++ authority ++ uri

/-! ### The redirect middlewares -/

/-- A resolved redirect: a pattern with its replacement, or a scheme with its port. -/
inductive RedirectRule where
  | regex (re : Regexp) (replacement : Bytes)
  | scheme (scheme port : Bytes)

structure RedirectMW where
  rule : RedirectRule
  status : ℕ := 302
  nonGETStatus : ℕ := 307

def redirectTargetPort (scheme port : Bytes) : Bytes :=
  if port = [] || redirectStandardPort scheme port then [] else lit ":" ++ port

/-- `redirectSchemePattern` and its replacement: the expansion, or `none` where the pattern does not match. -/
def schemeTarget (scheme port old : Bytes) : Option Bytes :=
  if old.contains 10 then none
  else
    let (host, rest) := hostGroup ((httpRest old).getD old)
    let (_, rest) := portGroup rest
    some (scheme ++ lit "://" ++ host ++ redirectTargetPort scheme port ++ rest)

/-- The expansion of a rebuilt URL, or `none` where the pattern does not match. -/
def RedirectMW.expand (m : RedirectMW) (old : Bytes) : Option Bytes :=
  match m.rule with
  | .regex re replacement => if re.matchString old then some (re.replaceAllString old replacement) else none
  | .scheme scheme port => schemeTarget scheme port old

def RedirectMW.forwarded (m : RedirectMW) : Bool :=
  match m.rule with
  | .regex _ _ => false
  | .scheme _ _ => true

/-- What a middleware does with a request. -/
inductive TargetOutcome where
  | status (code : ℕ)
  | next (r : TargetRequest)
deriving DecidableEq

def redirectMiddlewareHandler (N : UrlParser) (m : RedirectMW) (r : TargetRequest) : TargetOutcome :=
  let old := redirectRequestURL r m.forwarded
  match m.expand old with
  | none => .next r
  | some target =>
    match N.parse target with
    | none => .status 500
    | some parsed =>
      if target = old then .next { r with url := parsed, requestURI := parsed.requestURI }
      else .status (if r.method = lit "GET" then m.status else m.nonGETStatus)

/-! ### Chains -/

/-- `requestPathHandler` with the request URI it sets before it cleans the path. -/
def policyHandler (m : PathPolicy) (r : TargetRequest) : TargetOutcome :=
  let current := if r.url.rawPath = [] then r.url.escapedPath else r.url.rawPath
  if m.skips current then .next r
  else
    match applyRequestPath m ⟨r.url, r.header⟩ current with
    | none => .status m.errorStatus
    | some (normalize, out) =>
      let uri := out.url.requestURI
      if normalize then
        match requestPathNormalized out.url with
        | (true, url) => .next { r with url := url, header := out.header, requestURI := uri }
        | (false, _) => .status 400
      else .next { r with url := out.url, header := out.header, requestURI := uri }

/-- The rewrites of a group's edge, a rewrite at its position, or a redirect middleware. -/
inductive ChainStage where
  | hoisted (ops : List PathRewrite)
  | policy (m : PathPolicy)
  | redirect (m : RedirectMW)

def ChainStage.serve (N : UrlParser) : ChainStage → TargetRequest → TargetOutcome
  | .hoisted ops, r => .next { r with url := withPathRewrite ops r.url }
  | .policy m, r => policyHandler m r
  | .redirect m, r => redirectMiddlewareHandler N m r

/-- The URL that a rewrite at its position sets the request URI from, if it does not leave the request. -/
def PathPolicy.rewritten (m : PathPolicy) (r : TargetRequest) : Option Url :=
  let current := if r.url.rawPath = [] then r.url.escapedPath else r.url.rawPath
  if m.skips current then none else (applyRequestPath m ⟨r.url, r.header⟩ current).map (·.2.url)

/-- The URL that the request URI was last set from, behind a stage that hands on `out`. -/
def ChainStage.sets (set : Url) (r out : TargetRequest) : ChainStage → Url
  | .hoisted _ => set
  | .policy m => (m.rewritten r).getD set
  | .redirect m => if m.expand (redirectRequestURL r m.forwarded) = none then set else out.url

/-- A redirect middleware, the URL that the request URI was last set from, and the request it receives. -/
structure Reached where
  redirect : RedirectMW
  set : Url
  received : TargetRequest

def ChainStage.reached (set : Url) (r : TargetRequest) : ChainStage → List Reached
  | .redirect m => [⟨m, set, r⟩]
  | _ => []

/-- The redirect middlewares of a chain that a request reaches. -/
def redirectsReached (N : UrlParser) : List ChainStage → Url → TargetRequest → List Reached
  | [], _, _ => []
  | stage :: stages, set, r =>
    stage.reached set r ++
      match stage.serve N r with
      | .status _ => []
      | .next out => redirectsReached N stages (stage.sets set r out) out

/-- The same path, the same escaped path and the same query. -/
def Url.Aligned (u v : Url) : Prop :=
  u.path = v.path ∧ u.escapedPath = v.escapedPath ∧ u.rawQuery = v.rawQuery

/-- The next handler sees the same path, the same escaped path and the same query. -/
def SameTarget (r out : TargetRequest) : Prop := out.url.Aligned r.url

/-! ### What a request URI stands for -/

/-- The part of a request URI that follows the authority in the rebuilt URL. -/
def afterAuthority (uri : Bytes) : Bytes :=
  match absoluteGroups uri with
  | some (_, _, _, rest) => rest
  | none => uri

/-- The URL read from what follows an authority: bytes before the first slash run into the authority. -/
def targetOf (rest : Bytes) : Option Url :=
  let (rest, query, force) := cutQuery (cut rest (ch '#')).1
  urlOf (rest.dropWhile (· != ch '/')) query force

/-- The request URI stands for the path, the escaped path and the query of the URL. -/
def Stands (uri : Bytes) (u : Url) : Prop := ∃ v, targetOf (afterAuthority uri) = some v ∧ v.Aligned u

/-- A request URI made of the URL is read back as it was: it starts with a slash, and nothing is cut off. -/
def Url.ReadBack (u : Url) : Prop := Rooted u.escapedPath ∧ ch '#' ∉ u.rawQuery

/-- The target `u` is that of the URL the request URI was set from, or of what is read from that URI instead:
without a slash in front its first bytes run into the authority, and a number sign ends it. -/
def Url.Kept (set u : Url) : Prop :=
  (set.ReadBack → set.Aligned u) ∧ (¬ set.ReadBack → Stands set.requestURI u)

/-- The redirect leads back to the rebuilt URL, and that one parses. -/
def Unchanged (N : UrlParser) (m : RedirectMW) (r : TargetRequest) : Prop :=
  m.expand (redirectRequestURL r m.forwarded) = some (redirectRequestURL r m.forwarded) ∧
    N.parse (redirectRequestURL r m.forwarded) ≠ none

/-- None of the bytes that end an authority. -/
def Undelimited (s : Bytes) : Prop := ∀ c ∈ s, c ≠ ch '/' ∧ c ≠ ch '?' ∧ c ≠ ch '#'

/-! ### Cutting behind an authority -/

theorem Undelimited.append {a b : Bytes} (ha : Undelimited a) (hb : Undelimited b) : Undelimited (a ++ b) := by
  intro c hc
  rcases List.mem_append.mp hc with h | h
  · exact ha c h
  · exact hb c h

theorem undelimited_singleton {b : UInt8} (h : b ≠ ch '/' ∧ b ≠ ch '?' ∧ b ≠ ch '#') : Undelimited [b] := by
  intro c hc
  rw [List.mem_singleton.mp hc]
  exact h

theorem undelimited_nil : Undelimited [] := fun _ h => absurd h List.not_mem_nil

theorem cut_append {a : Bytes} {c : UInt8} (h : c ∉ a) (s : Bytes) :
    cut (a ++ s) c = (a ++ (cut s c).1, (cut s c).2) := by
  have hsplit : splitAtByte c (a ++ s) = (splitAtByte c s).map fun r => (a ++ r.1, r.2) := by
    induction a with
    | nil => simp
    | cons b bs ih =>
      rw [List.mem_cons, not_or] at h
      rw [List.cons_append, splitAtByte, if_neg (Ne.symm h.1), ih h.2, Option.map_map]
      rfl
  rw [cut, cut, hsplit]
  cases splitAtByte c s with
  | none => rfl
  | some r => rfl

theorem cutQuery_append {a : Bytes} (h : ch '?' ∉ a) (s : Bytes) :
    cutQuery (a ++ s) = (a ++ (cutQuery s).1, (cutQuery s).2) := by
  have hcount : (a ++ s).count (ch '?') = s.count (ch '?') := by
    rw [List.count_append, List.count_eq_zero_of_not_mem h, Nat.zero_add]
  have hsuffix : hasSuffix (a ++ s) (lit "?") = hasSuffix s (lit "?") := by
    have hq : lit "?" = [ch '?'] := by decide
    rw [Bool.eq_iff_iff, hasSuffix_iff, hasSuffix_iff, hq]
    constructor
    · intro hsuf
      rcases List.eq_nil_or_concat s with hnil | ⟨t, b, ht⟩
      · rw [hnil, List.append_nil] at hsuf
        exact absurd (hsuf.subset List.mem_cons_self) h
      · rw [ht, List.concat_eq_append, ← List.append_assoc] at hsuf
        obtain ⟨l, hl⟩ := hsuf
        rw [ht, List.concat_eq_append, (List.append_inj' hl rfl).2]
        exact List.suffix_append t [b]
    · intro hsuf
      exact hsuf.trans (List.suffix_append a s)
  rw [cutQuery, cutQuery, hcount, hsuffix, cut_append h]
  by_cases hlone : (hasSuffix s (lit "?") && s.count (ch '?') == 1) = true
  · rw [if_pos hlone, if_pos hlone]
    have hne : s ≠ [] := by
      intro hnil
      rw [hnil] at hlone
      cases hlone
    rw [List.dropLast_append_of_ne_nil hne]
  · rw [if_neg hlone, if_neg hlone]

variable {N : UrlParser} {u : Url}

/-- What `net/url` reads from a rebuilt URL is what stands behind the authority. -/
theorem parse_rebuilt {scheme authority rest : Bytes}
    (hscheme : scheme = lit "http" ∨ scheme = lit "https") (ha : Undelimited authority)
    (h : N.parse (scheme ++ lit "://" ++ authority ++ rest) = some u) : targetOf rest = some u := by
  have hrest : httpRest (scheme ++ lit "://" ++ authority ++ rest) = some (authority ++ rest) := by
    rcases hscheme with rfl | rfl
    · rfl
    · rfl
  rw [UrlParser.parse, hrest] at h
  dsimp only at h
  rw [cut_append fun hc => (ha _ hc).2.2 rfl, cutQuery_append fun hc => (ha _ hc).2.1 rfl] at h
  dsimp only at h
  split at h
  · simp at h
  · split at h
    · simp at h
    · rw [List.dropWhile_append_of_pos] at h
      · exact h
      · intro c hc
        simpa using (ha c hc).1

/-! ### The parts of a rebuilt URL -/

theorem undelimited_takeWhile {p : UInt8 → Bool}
    (hp : p (ch '/') = false ∧ p (ch '?') = false ∧ p (ch '#') = false) (s : Bytes) :
    Undelimited (s.takeWhile p) := by
  intro c hc
  have hpc := List.mem_takeWhile_imp hc
  refine ⟨?_, ?_, ?_⟩
  · intro h
    rw [h, hp.1] at hpc
    exact Bool.false_ne_true hpc
  · intro h
    rw [h, hp.2.1] at hpc
    exact Bool.false_ne_true hpc
  · intro h
    rw [h, hp.2.2] at hpc
    exact Bool.false_ne_true hpc

theorem hostGroup_undelimited (s : Bytes) : Undelimited (hostGroup s).1 := by
  cases s with
  | nil => exact undelimited_nil
  | cons b rest =>
    rw [hostGroup]
    split
    · rename_i hb
      cases rest.dropWhile fun c => isWord c || c == ch ':' || c == ch '.' with
      | nil => exact undelimited_nil
      | cons d after =>
        dsimp only
        split
        · rename_i hd
          have hinner : Undelimited (rest.takeWhile fun c => isWord c || c == ch ':' || c == ch '.') :=
            undelimited_takeWhile (by decide) rest
          have hopen : Undelimited [ch '['] := undelimited_singleton (by decide)
          have hclose : Undelimited [ch ']'] := undelimited_singleton (by decide)
          rw [Bool.and_eq_true, beq_iff_eq] at hd
          rw [hb, hd.2]
          exact hopen.append (hinner.append hclose)
        · exact undelimited_nil
    · have hword : Undelimited ((b :: rest).takeWhile fun c => isWord c || c == ch '.' || c == ch '-') :=
        undelimited_takeWhile (by decide) (b :: rest)
      exact hword

theorem portGroup_undelimited (s : Bytes) : Undelimited (portGroup s).1 := by
  cases s with
  | nil => exact undelimited_nil
  | cons b rest =>
    rw [portGroup]
    split
    · rename_i hb
      have hcolon : Undelimited [ch ':'] := undelimited_singleton (by decide)
      have hdigits : Undelimited (rest.takeWhile fun c => 48 ≤ c && c ≤ 57) :=
        undelimited_takeWhile (by decide) rest
      rw [Bool.and_eq_true, beq_iff_eq] at hb
      rw [hb.1]
      exact hcolon.append hdigits
    · exact undelimited_nil

theorem mem_of_cutLast_right {s before after : Bytes} {c : UInt8} (h : cutLast s c = some (before, after)) :
    ∀ b ∈ after, b ∈ s := by
  rw [cutLast_some h]
  exact fun b hb => List.mem_append_right _ (List.mem_cons_of_mem _ hb)

theorem mem_of_splitHostPort {s host port : Bytes} (h : splitHostPort s = some (host, port)) :
    (∀ c ∈ host, c ∈ s) ∧ ∀ c ∈ port, c ∈ s := by
  rw [splitHostPort] at h
  cases hcut : cutLast s (ch ':') with
  | none =>
    rw [hcut] at h
    simp at h
  | some cutPair =>
    obtain ⟨before, after⟩ := cutPair
    rw [hcut] at h
    dsimp only at h
    have hbefore := mem_of_cutLast hcut
    have hafter := mem_of_cutLast_right hcut
    split at h
    · cases hopen : splitAtByte (ch ']') s with
      | none =>
        rw [hopen] at h
        simp at h
      | some parts =>
        obtain ⟨opened, rest⟩ := parts
        rw [hopen] at h
        dsimp only at h
        split at h
        · simp at h
        · split at h
          · simp at h
          · rw [Option.some.injEq, Prod.mk.injEq] at h
            obtain ⟨rfl, rfl⟩ := h
            refine ⟨fun c hc => ?_, hafter⟩
            rw [(splitAtByte_some hopen).1]
            exact List.mem_append_left _ (List.mem_of_mem_tail hc)
    · split at h
      · simp at h
      · rw [Option.some.injEq, Prod.mk.injEq] at h
        obtain ⟨rfl, rfl⟩ := h
        exact ⟨hbefore, hafter⟩

theorem redirectHostAndPort_undelimited {authority : Bytes} (h : Undelimited authority) :
    Undelimited (redirectHostAndPort authority).1 ∧ Undelimited (redirectHostAndPort authority).2 := by
  rw [redirectHostAndPort]
  cases hsplit : splitHostPort authority with
  | none => exact ⟨h, undelimited_nil⟩
  | some pair =>
    obtain ⟨host, port⟩ := pair
    have hmem := mem_of_splitHostPort hsplit
    have hhost : Undelimited host := fun c hc => h c (hmem.1 c hc)
    have hport : Undelimited port := fun c hc => h c (hmem.2 c hc)
    have hopen : Undelimited (lit "[") := undelimited_singleton (by decide)
    have hclose : Undelimited (lit "]") := undelimited_singleton (by decide)
    have hcolon : Undelimited (lit ":") := undelimited_singleton (by decide)
    refine ⟨?_, hcolon.append hport⟩
    dsimp only
    split
    · exact (hopen.append hhost).append hclose
    · exact hhost

variable {r : TargetRequest}

theorem forwardedRedirectAuthority_spec {scheme port : Bytes}
    (hscheme : scheme = lit "http" ∨ scheme = lit "https") (hport : Undelimited port) :
    ((forwardedRedirectAuthority r scheme port).1 = lit "http" ∨
        (forwardedRedirectAuthority r scheme port).1 = lit "https") ∧
      Undelimited (forwardedRedirectAuthority r scheme port).2 := by
  rw [forwardedRedirectAuthority]
  dsimp only
  refine ⟨?_, ?_⟩
  · split
    · exact Or.inl rfl
    · split
      · exact Or.inr rfl
      · exact hscheme
  · generalize redirectStandardPort _ _ = standard
    cases standard with
    | true => exact undelimited_nil
    | false => exact hport

variable {uri : Bytes}

/-- The groups of an absolute URI. -/
theorem absoluteGroups_spec {scheme host port rest : Bytes}
    (h : absoluteGroups uri = some (scheme, host, port, rest)) :
    (scheme = lit "http" ∨ scheme = lit "https") ∧ Undelimited host ∧ Undelimited port := by
  rw [absoluteGroups] at h
  cases hrest : httpRest uri with
  | none =>
    rw [hrest] at h
    simp at h
  | some text =>
    rw [hrest] at h
    dsimp only at h
    split at h
    · simp at h
    · rw [Option.some.injEq, Prod.mk.injEq, Prod.mk.injEq, Prod.mk.injEq] at h
      obtain ⟨hs, hh, hp, _⟩ := h
      rw [← hs, ← hh, ← hp]
      refine ⟨?_, hostGroup_undelimited text, portGroup_undelimited _⟩
      split
      · exact Or.inr rfl
      · exact Or.inl rfl

/-- A rebuilt URL is an HTTP scheme, an authority without delimiters, and what follows it in the URI. -/
theorem redirectParts_spec (hhost : Undelimited r.host) (forwarded : Bool) :
    ((redirectParts r forwarded).1 = lit "http" ∨ (redirectParts r forwarded).1 = lit "https") ∧
      Undelimited (redirectParts r forwarded).2.1 ∧
      (redirectParts r forwarded).2.2 = afterAuthority r.uri := by
  have hpair : Undelimited (if forwarded then redirectHostAndPort r.host else (r.host, [])).1 ∧
      Undelimited (if forwarded then redirectHostAndPort r.host else (r.host, [])).2 := by
    cases forwarded with
    | true => exact redirectHostAndPort_undelimited hhost
    | false => exact ⟨hhost, undelimited_nil⟩
  rw [redirectParts, afterAuthority]
  generalize (if forwarded then redirectHostAndPort r.host else (r.host, [])) = pair at hpair
  obtain ⟨host, port⟩ := pair
  -- the scheme, host and port before the forwarded fields are read
  have hfinish : ∀ scheme host port : Bytes, scheme = lit "http" ∨ scheme = lit "https" → Undelimited host →
      Undelimited port →
      ((if forwarded then forwardedRedirectAuthority r (if r.tls then lit "https" else scheme) port
          else (if r.tls then lit "https" else scheme, port)).1 = lit "http" ∨
        (if forwarded then forwardedRedirectAuthority r (if r.tls then lit "https" else scheme) port
          else (if r.tls then lit "https" else scheme, port)).1 = lit "https") ∧
      Undelimited (host ++ (if forwarded then
        forwardedRedirectAuthority r (if r.tls then lit "https" else scheme) port
          else (if r.tls then lit "https" else scheme, port)).2) := by
    intro scheme host port hscheme hhost hport
    have htls : (if r.tls then lit "https" else scheme) = lit "http" ∨
        (if r.tls then lit "https" else scheme) = lit "https" := by
      split
      · exact Or.inr rfl
      · exact hscheme
    cases forwarded with
    | true =>
      have hspec := forwardedRedirectAuthority_spec (r := r) htls hport
      exact ⟨hspec.1, hhost.append hspec.2⟩
    | false => exact ⟨htls, hhost.append hport⟩
  cases hgroups : absoluteGroups r.uri with
  | none =>
    have h := hfinish (lit "http") host port (Or.inl rfl) hpair.1 hpair.2
    exact ⟨h.1, h.2, rfl⟩
  | some groups =>
    obtain ⟨scheme, host', port', rest⟩ := groups
    obtain ⟨hscheme, hhost', hport'⟩ := absoluteGroups_spec hgroups
    have hh : Undelimited (if host' ≠ [] then host' else host) := by
      split
      · exact hhost'
      · exact hpair.1
    have hp : Undelimited (if port' ≠ [] then port' else port) := by
      split
      · exact hport'
      · exact hpair.2
    have h := hfinish scheme _ _ hscheme hh hp
    exact ⟨h.1, h.2, rfl⟩

/-! ### Redirects that call the next handler -/

/-- What a parsed rebuilt URL is. -/
theorem targetOf_of_parse (hhost : Undelimited r.host) {forwarded : Bool}
    (h : N.parse (redirectRequestURL r forwarded) = some u) :
    targetOf (afterAuthority r.uri) = some u := by
  obtain ⟨hscheme, hauthority, hrest⟩ := redirectParts_spec hhost forwarded
  rw [← hrest]
  exact parse_rebuilt hscheme hauthority h

variable {m : RedirectMW} {out : TargetRequest}

/-- What a redirect middleware hands on: the request as it is, or with the URL read from the rebuilt text. -/
theorem redirectMiddlewareHandler_next (h : redirectMiddlewareHandler N m r = .next out) :
    (m.expand (redirectRequestURL r m.forwarded) = none ∧ out = r) ∨
      m.expand (redirectRequestURL r m.forwarded) = some (redirectRequestURL r m.forwarded) ∧
        ∃ u, N.parse (redirectRequestURL r m.forwarded) = some u ∧
          out = { r with url := u, requestURI := u.requestURI } := by
  rw [redirectMiddlewareHandler] at h
  cases hexpand : m.expand (redirectRequestURL r m.forwarded) with
  | none =>
    rw [hexpand] at h
    exact Or.inl ⟨rfl, (TargetOutcome.next.inj h).symm⟩
  | some target =>
    rw [hexpand] at h
    dsimp only at h
    cases hparse : N.parse target with
    | none =>
      rw [hparse] at h
      exact absurd h TargetOutcome.noConfusion
    | some u =>
      rw [hparse] at h
      dsimp only at h
      split at h
      · rename_i htarget
        rw [htarget] at hparse ⊢
        exact Or.inr ⟨rfl, u, hparse, (TargetOutcome.next.inj h).symm⟩
      · exact absurd h TargetOutcome.noConfusion

/-- One redirect middleware: the target stays as it is if and only if the request URI stands for it, or the
URL is not handed on. -/
theorem redirectMiddlewareHandler_frame (N : UrlParser) (m : RedirectMW)
    (hhost : Undelimited r.host) :
    (∀ out, redirectMiddlewareHandler N m r = .next out → SameTarget r out) ↔
      (Unchanged N m r → Stands r.uri r.url) := by
  constructor
  · intro hsame hunchanged
    obtain ⟨hexpand, hparses⟩ := hunchanged
    obtain ⟨u, hu⟩ := Option.ne_none_iff_exists'.mp hparses
    have hnext : redirectMiddlewareHandler N m r =
        .next { r with url := u, requestURI := u.requestURI } := by
      rw [redirectMiddlewareHandler, hexpand]
      dsimp only
      rw [hu]
      exact if_pos rfl
    exact ⟨u, targetOf_of_parse hhost hu, hsame _ hnext⟩
  · intro hstands out hnext
    rcases redirectMiddlewareHandler_next hnext with ⟨-, rfl⟩ | ⟨hexpand, u, hparse, rfl⟩
    · exact ⟨rfl, rfl, rfl⟩
    · obtain ⟨v, hv, haligned⟩ := hstands ⟨hexpand, by rw [hparse]; exact Option.some_ne_none u⟩
      rw [targetOf_of_parse hhost hparse] at hv
      rw [← Option.some.inj hv] at haligned
      exact haligned

/-- What a rewrite at its position hands on: the request as it is, or the rewritten URL, cleaned or not, with
the request URI made of the URL before it is cleaned. -/
theorem policyHandler_next {m : PathPolicy} (h : policyHandler m r = .next out) :
    (m.rewritten r = none ∧ out = r) ∨
      ∃ set, m.rewritten r = some set ∧ out.requestURI = set.requestURI ∧ out.host = r.host ∧
        (out.url = set ∨ requestPathNormalized set = (true, out.url)) := by
  rw [policyHandler] at h
  rw [PathPolicy.rewritten]
  dsimp only at h ⊢
  generalize (if r.url.rawPath = [] then r.url.escapedPath else r.url.rawPath) = current at h ⊢
  split at h
  · rename_i hskip
    rw [if_pos hskip]
    exact Or.inl ⟨rfl, (TargetOutcome.next.inj h).symm⟩
  · rename_i hskip
    rw [if_neg hskip]
    split at h
    · exact absurd h TargetOutcome.noConfusion
    · rename_i normalize applied happly
      rw [happly]
      refine Or.inr ⟨applied.url, rfl, ?_⟩
      split at h
      · split at h
        · rename_i url hnormal
          rw [← TargetOutcome.next.inj h]
          exact ⟨rfl, rfl, Or.inr hnormal⟩
        · exact absurd h TargetOutcome.noConfusion
      · rw [← TargetOutcome.next.inj h]
        exact ⟨rfl, rfl, Or.inl rfl⟩

/-- No stage changes the host. -/
theorem serve_host {stage : ChainStage} (h : stage.serve N r = .next out) : out.host = r.host := by
  cases stage with
  | hoisted ops => rw [← TargetOutcome.next.inj h]
  | policy m =>
    rcases policyHandler_next h with ⟨-, rfl⟩ | ⟨set, -, -, hhost, -⟩
    · rfl
    · exact hhost
  | redirect m =>
    rcases redirectMiddlewareHandler_next h with ⟨-, rfl⟩ | ⟨-, u, -, rfl⟩
    · rfl
    · rfl

/-! ### Where the request URI and the URL agree -/

/-- The request comes in with a request URI in origin form, and the URL is read from it. -/
def Arrives (r : TargetRequest) : Prop :=
  Rooted r.requestURI ∧ ch '#' ∉ r.requestURI ∧
    urlOf (cutQuery r.requestURI).1 (cutQuery r.requestURI).2.1 (cutQuery r.requestURI).2.2 = some r.url

theorem cut_of_not_mem {s : Bytes} {c : UInt8} (h : c ∉ s) : (cut s c).1 = s := by
  rw [cut, splitAtByte_none h]

theorem afterAuthority_of_rooted (h : Rooted uri) : afterAuthority uri = uri := by
  obtain ⟨s, rfl⟩ := h
  rfl

theorem cutQuery_rooted (h : Rooted uri) : Rooted (cutQuery uri).1 := by
  obtain ⟨s, rfl⟩ := h
  have hslash : ch '?' ∉ [ch '/'] := by decide
  have happend := cutQuery_append hslash s
  rw [List.singleton_append] at happend
  rw [happend]
  exact ⟨_, rfl⟩

/-- Where the request URI is rooted, its path starts at its first byte. -/
theorem targetOf_rooted (h : Rooted uri) (hhash : ch '#' ∉ uri) :
    targetOf (afterAuthority uri) = urlOf (cutQuery uri).1 (cutQuery uri).2.1 (cutQuery uri).2.2 := by
  obtain ⟨s, hs⟩ := cutQuery_rooted h
  rw [afterAuthority_of_rooted h, targetOf, cut_of_not_mem hhash]
  dsimp only
  rw [hs, List.dropWhile_cons_of_neg (by decide)]

theorem Rooted.ne_nil {p : Bytes} (h : Rooted p) : p ≠ [] := by
  obtain ⟨s, rfl⟩ := h
  exact List.cons_ne_nil _ _

theorem escapeByte_undelimited (c : UInt8) :
    ch '?' ∉ (if shouldEscapePath c then percent true c else [c]) ∧
      ch '#' ∉ (if shouldEscapePath c then percent true c else [c]) :=
  forall_byte (p := fun c => ch '?' ∉ (if shouldEscapePath c then percent true c else [c]) ∧
    ch '#' ∉ (if shouldEscapePath c then percent true c else [c])) (by decide +kernel) c

/-- An escaped path holds neither a question mark nor a number sign. -/
theorem escapedPath_undelimited (path raw : Bytes) :
    ch '?' ∉ Base.escapedPath path raw ∧ ch '#' ∉ Base.escapedPath path raw := by
  rw [Base.escapedPath]
  split
  · rename_i hraw
    have hvalid := List.all_eq_true.mp hraw.2.1
    refine ⟨fun hc => ?_, fun hc => ?_⟩
    · exact absurd (hvalid _ hc) (by decide)
    · exact absurd (hvalid _ hc) (by decide)
  · split
    · decide
    · rw [escapePath]
      refine ⟨fun hc => ?_, fun hc => ?_⟩
      · obtain ⟨c, _, h⟩ := List.mem_flatMap.mp hc
        exact (escapeByte_undelimited c).1 h
      · obtain ⟨c, _, h⟩ := List.mem_flatMap.mp hc
        exact (escapeByte_undelimited c).2 h

/-- Setting the path of a URL to its escaped path leaves the escaped path. -/
theorem escapedPath_reset (hpath : u.path ≠ lit "*") :
    Base.escapedPath u.path (if u.escapedPath = escapePath u.path then [] else u.escapedPath) =
      u.escapedPath := by
  by_cases hdefault : u.escapedPath = escapePath u.path
  · rw [if_pos hdefault, Base.escapedPath, if_neg fun h => h.1 rfl, if_neg hpath]
    exact hdefault.symm
  · -- the path was escaped as it was written
    have hraw : u.rawPath ≠ [] ∧ validEncodedPath u.rawPath = true ∧ unescape u.rawPath = some u.path := by
      by_contra hnot
      rw [Url.escapedPath, Base.escapedPath, if_neg hnot, if_neg hpath] at hdefault
      exact hdefault rfl
    have hwritten : u.escapedPath = u.rawPath := by
      rw [Url.escapedPath, Base.escapedPath, if_pos hraw]
    rw [if_neg hdefault, hwritten, Base.escapedPath, if_pos hraw]

theorem urlOf_escapedPath (hpath : u.path ≠ lit "*") (query : Bytes) (force : Bool) :
    ∃ v, urlOf u.escapedPath query force = some v ∧ v.path = u.path ∧ v.escapedPath = u.escapedPath ∧
      v.rawQuery = query := by
  have hunescape : unescape u.escapedPath = some u.path := unescape_escapedPath u.path u.rawPath
  rw [urlOf, hunescape]
  exact ⟨_, rfl, rfl, escapedPath_reset hpath, rfl⟩

theorem path_ne_asterisk (h : Rooted u.escapedPath) : u.path ≠ lit "*" := by
  obtain ⟨s, hs⟩ := h.decodes (unescape_escapedPath u.path u.rawPath)
  rw [hs]
  intro heq
  exact absurd (List.cons.inj heq).1 (by decide)

/-- A query behind its question mark is read back. -/
theorem cutQuery_query (query : Bytes) :
    (cutQuery (lit "?" ++ query)).1 = [] ∧ (cutQuery (lit "?" ++ query)).2.1 = query := by
  have hq : lit "?" = [ch '?'] := by decide
  rw [hq, List.singleton_append, cutQuery, hq]
  split
  · rename_i hlone
    rw [Bool.and_eq_true, beq_iff_eq, hasSuffix_iff, List.count_cons_self] at hlone
    have hnot : ch '?' ∉ query := List.count_eq_zero.mp (by omega)
    have hnil : query = [] := by
      rcases List.suffix_cons_iff.mp hlone.1 with heq | hsuf
      · exact (List.cons.inj heq).2.symm
      · exact absurd (hsuf.subset List.mem_cons_self) hnot
    rw [hnil]
    exact ⟨rfl, rfl⟩
  · have hcut : cut (ch '?' :: query) (ch '?') = ([], query, true) := by
      rw [cut, splitAtByte, if_pos rfl]
    rw [hcut]
    exact ⟨rfl, rfl⟩

/-- A request URI made of the URL is cut where the URL was put together. -/
theorem cutQuery_requestURI (h : u.escapedPath ≠ []) :
    (cutQuery u.requestURI).1 = u.escapedPath ∧ (cutQuery u.requestURI).2.1 = u.rawQuery := by
  have hpath : ch '?' ∉ u.escapedPath := (escapedPath_undelimited u.path u.rawPath).1
  rw [Url.requestURI]
  rw [if_neg h]
  split
  · obtain ⟨hfirst, hquery⟩ := cutQuery_query u.rawQuery
    rw [List.append_assoc, cutQuery_append hpath, hfirst, hquery, List.append_nil]
    exact ⟨rfl, rfl⟩
  · rename_i hquery
    have hnil : u.rawQuery = [] := by
      by_contra hne
      exact hquery (by rw [Bool.or_eq_true, bne_iff_ne]; exact Or.inr hne)
    have happend := cutQuery_append hpath []
    rw [List.append_nil] at happend
    rw [happend, hnil]
    exact ⟨List.append_nil _, rfl⟩

theorem requestURI_shape (hpath : Rooted u.escapedPath) (hquery : ch '#' ∉ u.rawQuery) :
    Rooted u.requestURI ∧ ch '#' ∉ u.requestURI := by
  have hhash : ch '#' ∉ u.escapedPath := (escapedPath_undelimited u.path u.rawPath).2
  rw [Url.requestURI, if_neg hpath.ne_nil]
  split
  · refine ⟨(hpath.append _).append _, ?_⟩
    have hmark : ch '#' ∉ lit "?" := by decide
    rw [List.mem_append, List.mem_append, not_or, not_or]
    exact ⟨⟨hhash, hmark⟩, hquery⟩
  · exact ⟨hpath, hhash⟩

/-- A request URI made of a URL with a rooted path stands for that URL. -/
theorem stands_requestURI (h : u.ReadBack) : Stands u.requestURI u := by
  obtain ⟨hrooted, hhash⟩ := requestURI_shape h.1 h.2
  obtain ⟨hcut, hcutQuery⟩ := cutQuery_requestURI h.1.ne_nil
  rw [Stands, targetOf_rooted hrooted hhash, hcut, hcutQuery]
  exact urlOf_escapedPath (path_ne_asterisk h.1) _ _

/-- A rooted path that cleaning leaves alone is escaped as before. -/
theorem normalized_target {v : Url} (h : requestPathNormalized u = (true, v))
    (hpath : Rooted u.escapedPath) : v.Aligned u := by
  have hdecodes : unescape u.escapedPath = some u.path := unescape_escapedPath u.path u.rawPath
  have hstar := path_ne_asterisk hpath
  have hne : u.path ≠ [] := (hpath.decodes hdecodes).ne_nil
  rw [requestPathNormalized, if_neg hne, Prod.mk.injEq, decide_eq_true_eq] at h
  obtain ⟨hsame, rfl⟩ := h
  obtain ⟨s, hs⟩ := hpath
  rw [hs] at hdecodes
  obtain ⟨q, hq, hunchanged⟩ := cleanSlash_spec hdecodes
  have hjoin : u.joinPath = u.setPath (cleanSlash u.escapedPath) := by
    rw [Url.joinPath, hs]
    exact if_pos rfl
  have hclean : cleanSlash u.escapedPath = u.escapedPath := by
    rw [hjoin, hs, Url.setPath, hq] at hsame
    rw [hs]
    exact hunchanged (congrArg List.length hsame.symm)
  rw [hjoin, hclean, Url.setPath, hs, hdecodes, ← hs]
  exact ⟨rfl, escapedPath_reset hstar, rfl⟩

/-! ### Which URL the request URI stands for -/

theorem Url.Aligned.symm {v : Url} (h : u.Aligned v) : v.Aligned u :=
  ⟨h.1.symm, h.2.1.symm, h.2.2.symm⟩

theorem Url.Aligned.trans {v w : Url} (huv : u.Aligned v) (hvw : v.Aligned w) : u.Aligned w :=
  ⟨huv.1.trans hvw.1, huv.2.1.trans hvw.2.1, huv.2.2.trans hvw.2.2⟩

/-- A request URI that stands for one URL stands for those of the same target. -/
theorem Stands.iff_aligned {v : Url} (h : Stands uri u) : Stands uri v ↔ u.Aligned v := by
  obtain ⟨w, hw, hwu⟩ := h
  constructor
  · rintro ⟨w', hw', haligned⟩
    rw [hw] at hw'
    rw [← Option.some.inj hw'] at haligned
    exact hwu.symm.trans haligned
  · intro haligned
    exact ⟨w, hw, hwu.trans haligned⟩

/-- A request URI stands for what is kept of the URL it was made of. -/
theorem stands_requestURI_iff (set v : Url) : Stands set.requestURI v ↔ set.Kept v := by
  by_cases hback : set.ReadBack
  · rw [(stands_requestURI hback).iff_aligned]
    exact ⟨fun h => ⟨fun _ => h, fun hnot => absurd hback hnot⟩, fun h => h.1 hback⟩
  · exact ⟨fun h => ⟨fun h' => absurd h' hback, fun _ => h⟩, fun h => h.2 hback⟩

/-- The request URI is there, and what it stands for is what is kept of `set`. -/
structure Tracks (set : Url) (r : TargetRequest) : Prop where
  uri_ne : r.requestURI ≠ []
  stands : ∀ v, Stands r.requestURI v ↔ set.Kept v

theorem Tracks.stands_uri {set : Url} (h : Tracks set r) : Stands r.uri r.url ↔ set.Kept r.url := by
  rw [TargetRequest.uri, if_neg h.uri_ne]
  exact h.stands r.url

theorem tracks_of_requestURI {set : Url} (h : r.requestURI = set.requestURI) : Tracks set r where
  uri_ne := by
    rw [h, Url.requestURI]
    split
    · exact List.append_ne_nil_of_left_ne_nil (List.append_ne_nil_of_right_ne_nil _ (List.cons_ne_nil _ _)) _
    · split
      · exact List.cons_ne_nil _ _
      · assumption
  stands v := by
    rw [h]
    exact stands_requestURI_iff set v

theorem mem_cutQuery {s : Bytes} {c : UInt8} (h : c ∈ (cutQuery s).2.1) : c ∈ s := by
  rw [cutQuery] at h
  split at h
  · exact absurd h List.not_mem_nil
  · rw [cut] at h
    cases hsplit : splitAtByte (ch '?') s with
    | none =>
      rw [hsplit] at h
      exact absurd h List.not_mem_nil
    | some parts =>
      rw [hsplit] at h
      rw [(splitAtByte_some hsplit).1]
      exact List.mem_append_right _ (List.mem_cons_of_mem _ h)

/-- The URL of a request that comes in is read back from a request URI made of it. -/
theorem Arrives.readBack (h : Arrives r) : r.url.ReadBack := by
  obtain ⟨hrooted, hhash, hurl⟩ := h
  rw [urlOf, Option.map_eq_some_iff] at hurl
  obtain ⟨p, hp, hu⟩ := hurl
  have hpath : Rooted p := (cutQuery_rooted hrooted).decodes hp
  rw [← hu]
  refine ⟨?_, fun hc => hhash (mem_cutQuery hc)⟩
  by_cases hraw : (cutQuery r.requestURI).1 = escapePath p
  · rw [if_pos hraw]
    exact escapedPath_rooted hpath
  · rw [if_neg hraw]
    show Rooted (Base.escapedPath p _)
    rw [Base.escapedPath]
    split
    · exact cutQuery_rooted hrooted
    · have hdefault := escapedPath_rooted hpath
      rw [Base.escapedPath, if_neg fun h => h.1 rfl] at hdefault
      exact hdefault

/-- A request comes in with a request URI that stands for its URL. -/
theorem Arrives.tracks (h : Arrives r) : Tracks r.url r where
  uri_ne := h.1.ne_nil
  stands v := by
    have hstands : Stands r.requestURI r.url :=
      ⟨r.url, (targetOf_rooted h.1 h.2.1).trans h.2.2, rfl, rfl, rfl⟩
    rw [hstands.iff_aligned]
    exact ⟨fun ha => ⟨fun _ => ha, fun hnot => absurd h.readBack hnot⟩, fun ha => ha.1 h.readBack⟩

variable {set : Url}

/-- One stage: the request URI keeps standing for the URL that it was last set from. -/
theorem Tracks.serve {stage : ChainStage} (h : Tracks set r) (hserve : stage.serve N r = .next out) :
    Tracks (stage.sets set r out) out := by
  cases stage with
  | hoisted ops =>
    rw [← TargetOutcome.next.inj hserve]
    exact ⟨h.uri_ne, h.stands⟩
  | policy m =>
    rw [ChainStage.sets]
    rcases policyHandler_next hserve with ⟨hskip, rfl⟩ | ⟨set', hset, huri, -, -⟩
    · rw [hskip]
      exact h
    · rw [hset]
      exact tracks_of_requestURI huri
  | redirect m =>
    rw [ChainStage.sets]
    rcases redirectMiddlewareHandler_next hserve with ⟨hexpand, rfl⟩ | ⟨hexpand, u, -, rfl⟩
    · rw [if_pos hexpand]
      exact h
    · rw [if_neg (by rw [hexpand]; exact Option.some_ne_none _)]
      exact tracks_of_requestURI rfl

/-! ### Chains of stages -/

/-- A property of the URL and the request that every stage keeps holds at every redirect middleware. -/
theorem forall_redirectsReached {P : Url → TargetRequest → Prop} {stages : List ChainStage}
    (hstep : ∀ stage ∈ stages, ∀ set r out, P set r → stage.serve N r = .next out →
      P (stage.sets set r out) out) (h : P set r) :
    ∀ reached ∈ redirectsReached N stages set r, P reached.set reached.received := by
  induction stages generalizing set r with
  | nil => exact fun _ hreached => absurd hreached List.not_mem_nil
  | cons stage stages ih =>
    intro reached hreached
    rw [redirectsReached] at hreached
    rcases List.mem_append.mp hreached with hhere | hrest
    · cases stage with
      | hoisted ops => exact absurd hhere List.not_mem_nil
      | policy m => exact absurd hhere List.not_mem_nil
      | redirect m =>
        rw [List.mem_singleton.mp hhere]
        exact h
    · cases hserve : stage.serve N r with
      | status code =>
        rw [hserve] at hrest
        exact absurd hrest List.not_mem_nil
      | next out =>
        rw [hserve] at hrest
        exact ih (fun stage' hmem => hstep stage' (List.mem_cons_of_mem _ hmem))
          (hstep stage List.mem_cons_self set r out h hserve) reached hrest

theorem redirectsReached_last (N : UrlParser) (m : RedirectMW) (set : Url) (r : TargetRequest) :
    redirectsReached N [.redirect m] set r = [⟨m, set, r⟩] := by
  rw [redirectsReached]
  cases (ChainStage.redirect m).serve N r with
  | status code => rfl
  | next out => rfl

/-! ### Chains without rewrites at an edge -/

/-- No rewrite at its position changes the query. -/
theorem rewritten_rawQuery {m : PathPolicy} (h : m.rewritten r = some u) :
    u.rawQuery = r.url.rawQuery := by
  rw [PathPolicy.rewritten] at h
  generalize (if r.url.rawPath = [] then r.url.escapedPath else r.url.rawPath) = current at h
  split at h
  · cases h
  · rw [Option.map_eq_some_iff] at h
    obtain ⟨⟨check, out⟩, happly, rfl⟩ := h
    rw [applyRequestPath] at happly
    cases hkind : m.kind with
    | replaceEscapedPath replacement =>
      rw [hkind, Option.map_eq_some_iff] at happly
      obtain ⟨path, -, hout⟩ := happly
      rw [← (Prod.mk.inj hout).2]
    | rewriteEscapedPath re replacement =>
      rw [hkind, Option.map_eq_some_iff] at happly
      obtain ⟨path, -, hout⟩ := happly
      rw [← (Prod.mk.inj hout).2]
    | prefixPath pre =>
      rw [hkind] at happly
      rw [← (Prod.mk.inj (Option.some.inj happly)).2]
      rfl
    | stripBytePrefixes prefixes force =>
      rw [hkind] at happly
      dsimp only at happly
      rw [stripRequestPrefixes] at happly
      split at happly
      · rw [← (Prod.mk.inj (Option.some.inj happly)).2]
      · dsimp only at happly
        split at happly
        · split at happly
          · cases happly
          · rw [← (Prod.mk.inj (Option.some.inj happly)).2]
        · rw [← (Prod.mk.inj (Option.some.inj happly)).2]

/-- The rewrites all stand at their own positions, and what they write starts with a slash. -/
structure Positioned (stages : List ChainStage) : Prop where
  unhoisted : ∀ ops, ChainStage.hoisted ops ∉ stages
  rooted : ∀ m, ChainStage.policy m ∈ stages → ∀ r u, m.rewritten r = some u → Rooted u.escapedPath

/-- The request has the target of the URL that the request URI was set from, and that one is read back. -/
structure InStep (set : Url) (r : TargetRequest) : Prop where
  tracks : Tracks set r
  host : Undelimited r.host
  readBack : set.ReadBack
  aligned : set.Aligned r.url

theorem Url.ReadBack.of_aligned {v : Url} (h : u.ReadBack) (haligned : u.Aligned v) : v.ReadBack := by
  rw [Url.ReadBack, ← haligned.2.1, ← haligned.2.2]
  exact h

theorem InStep.kept (h : InStep set r) : set.Kept r.url :=
  ⟨fun _ => h.aligned, fun hnot => absurd h.readBack hnot⟩

theorem InStep.serve {stages : List ChainStage} {stage : ChainStage} (hpos : Positioned stages)
    (hmem : stage ∈ stages) (h : InStep set r) (hserve : stage.serve N r = .next out) :
    InStep (stage.sets set r out) out := by
  suffices hset : (stage.sets set r out).ReadBack ∧ (stage.sets set r out).Aligned out.url from
    ⟨h.tracks.serve hserve, by rw [serve_host hserve]; exact h.host, hset.1, hset.2⟩
  cases stage with
  | hoisted ops => exact absurd hmem (hpos.unhoisted ops)
  | policy m =>
    rw [ChainStage.sets]
    rcases policyHandler_next hserve with ⟨hskip, rfl⟩ | ⟨u, hu, -, -, hurl⟩
    · rw [hskip]
      exact ⟨h.readBack, h.aligned⟩
    · rw [hu]
      have hrooted := hpos.rooted m hmem r u hu
      have hquery : ch '#' ∉ u.rawQuery := by
        rw [rewritten_rawQuery hu, ← h.aligned.2.2]
        exact h.readBack.2
      refine ⟨⟨hrooted, hquery⟩, ?_⟩
      rcases hurl with hurl | hnormal
      · rw [hurl]
        exact ⟨rfl, rfl, rfl⟩
      · exact (normalized_target hnormal hrooted).symm
  | redirect m =>
    rw [ChainStage.sets]
    rcases redirectMiddlewareHandler_next hserve with ⟨hexpand, rfl⟩ | ⟨hexpand, u, hparse, rfl⟩
    · rw [if_pos hexpand]
      exact ⟨h.readBack, h.aligned⟩
    · -- the URL read from the rebuilt text has the target of the URL that came
      obtain ⟨v, hv, haligned⟩ := h.tracks.stands_uri.mpr h.kept
      rw [targetOf_of_parse h.host hparse] at hv
      rw [← Option.some.inj hv] at haligned
      rw [if_neg (by rw [hexpand]; exact Option.some_ne_none _)]
      exact ⟨h.readBack.of_aligned (h.aligned.trans haligned.symm), rfl, rfl, rfl⟩

/-! ### The frame -/

def tlsRequest (path uri : Bytes) : TargetRequest where
  url := { path := path }
  header := ⟨[], List.nodup_nil⟩
  requestURI := uri
  host := lit "a"
  tls := true

def anyAuthority : UrlParser := ⟨fun _ => true, fun _ => none⟩

end Statute.Rewrite
