import Statute.Base.Cover
import Statute.Docker.Rule

/-!
# Refusal envelopes

`internal/docker/envelopeparse.go` and `internal/docker/envelope.go`: the tolerant reader of a
router rule whose routes are being discarded.  It never refuses a rule; whatever it cannot
represent widens the answer, up to the global envelope.

The reader is the strict one with three differences: `!` is a token, argument lists need no
commas, and a call it cannot read stands for every request.
-/

namespace Statute.Docker

open Statute.Base

/-! ### The tolerant parser -/

/-- Why a rule does not parse as an envelope expression. -/
inductive EnvError where
  | lex (e : LexError)
  | unexpectedEnd
  | trailing (t : Token)
  | expectedMatcher (t : Token)
  | expected (what : Token)
  | unterminatedArgs
  | unexpectedInArgs (t : Token)
deriving DecidableEq, Repr

/-- `envExpr`: a negation keeps no operand. -/
inductive EnvExpr where
  | or (left right : EnvExpr)
  | and (left right : EnvExpr)
  | not
  | fn (call : Call)
deriving DecidableEq, Repr

/-- `envParser.parseArgs`: a comma after a string is skipped, none is required. -/
def parseEnvArgs : List Bytes → List Token → Except EnvError (List Bytes × List Token)
  | _, [] => .error .unterminatedArgs
  | args, .string v :: .comma :: rest => parseEnvArgs (args ++ [v]) rest
  | args, .string v :: rest => parseEnvArgs (args ++ [v]) rest
  | args, .rparen :: rest => .ok (args, rest)
  | _, t :: _ => .error (.unexpectedInArgs t)

theorem parseEnvArgs_length (args : List Bytes) (toks : List Token) (out : List Bytes)
    (rest : List Token) (h : parseEnvArgs args toks = .ok (out, rest)) :
    rest.length ≤ toks.length := by
  fun_induction parseEnvArgs args toks with
  | case1 | case5 => cases h
  | case2 args v rest' ih =>
    have := ih h
    simp only [List.length_cons]
    omega
  | case3 args v rest' hne ih =>
    have := ih h
    simp only [List.length_cons]
    omega
  | case4 args rest' =>
    simp only [Except.ok.injEq, Prod.mk.injEq] at h
    simp [h.2]

/-- `envParser.parseCall` and the error case of `envParser.parseTerm`. -/
def parseEnvCall (t : Token) (rest : List Token) : Except EnvError (Call × List Token) :=
  match t with
  | .ident name =>
    match rest with
    | .lparen :: rest' =>
      match parseEnvArgs [] rest' with
      | .error e => .error e
      | .ok (args, rest'') => .ok (⟨name, args⟩, rest'')
    | _ => .error (.expected .lparen)
  | _ => .error (.expectedMatcher t)

theorem parseEnvCall_length (t : Token) (rest : List Token) (c : Call) (rest' : List Token)
    (h : parseEnvCall t rest = .ok (c, rest')) : rest'.length ≤ rest.length := by
  unfold parseEnvCall at h
  split at h
  · split at h
    · split at h
      · cases h
      · rename_i args rest'' hargs
        simp only [Except.ok.injEq, Prod.mk.injEq] at h
        have := parseEnvArgs_length _ _ _ _ hargs
        rw [← h.2, List.length_cons]
        omega
    · cases h
  · cases h

/-- The envelope grammar. -/
def envGrammar : Grammar Token Call EnvError where
  isOr t := t == .or
  isAnd t := t == .and
  isNot t := t == .not
  isOpen t := t == .lparen
  isClose t := t == .rparen
  leaf := parseEnvCall
  unexpectedEnd := .unexpectedEnd
  expectedClose _ := .expected .rparen
  trailing t := .trailing t
  leaf_le := parseEnvCall_length

/-- What `envParser` builds: the operand of a negation is parsed and dropped. -/
def envAlgebra : Algebra Call EnvExpr where
  or := .or
  and := .and
  not _ := .not
  leaf := .fn

/-- The envelope expression of a rule. -/
def envParse (rule : Bytes) : Except EnvError EnvExpr :=
  match lexEnvelope rule with
  | .error e => .error (.lex e)
  | .ok toks => parse envGrammar envAlgebra toks

/-! ### Derivation -/

def envWorkingCap : ℕ := 4096

/-- `envTop`: one conjunction with no constraint. -/
def envTop : List Conj := [{}]

/-- `hostLeaf`: one unread argument leaves the whole leaf unconstrained. -/
def hostLeaf (args : List Bytes) : List Conj :=
  if args.any (fun a => a == [] || !literalArg a || traefikHostForbidden a || !isASCII a) then envTop
  else [{ hosts := args }]

def pathLeaf (args : List Bytes) (byPrefix : Bool) : List Conj :=
  if args.any (fun a => !literalArg a || !hasPrefix a (lit "/") || pathHasPercent a) then envTop
  else args.map (fun a => { path := a, byPrefix := byPrefix, pathSet := true })

/-- `envFnExpr.envelope`. -/
def callEnvelope (c : Call) : List Conj × Bool :=
  if c.args = [] then ([], true)
  else if c.name = lit "Host" then (hostLeaf c.args, false)
  else if c.name = lit "Path" then (pathLeaf c.args false, false)
  else if c.name = lit "PathPrefix" then (pathLeaf c.args true, false)
  else (envTop, false)

def conjPathLE (a b : Conj) : Bool :=
  if b.byPrefix then b.path == lit "/" || hasPrefix a.path b.path
  else !a.byPrefix && a.path == b.path

/-- `mergeEnvConj`: the first host set wins, and of two paths the enclosing or the left one. -/
def mergeEnvConj (a b : Conj) : Conj :=
  let out := if a.hosts = [] then { a with hosts := b.hosts } else a
  if b.pathSet then
    if out.pathSet then
      if conjPathLE out b then { out with path := b.path, byPrefix := b.byPrefix } else out
    else { out with path := b.path, byPrefix := b.byPrefix, pathSet := true }
  else out

/-- The loop of `coarsenConjs`: drop the path, keep the first conjunction of each host list. -/
def coarsenInto : List Conj → List Conj → List Conj
  | out, [] => out
  | out, c :: rest =>
    let c := { c with path := [], byPrefix := false, pathSet := false }
    if out.any (fun o => o.hosts == c.hosts) then coarsenInto out rest
    else coarsenInto (out ++ [c]) rest

def coarsenConjs (conjs : List Conj) : List Conj := coarsenInto [] conjs

/-- The meet of two bounded envelopes: over the cap both sides are coarsened, and a product that
is still too large is the top. -/
def meetEnvelopes (ls rs : List Conj) : List Conj × Bool :=
  if envWorkingCap < ls.length * rs.length then
    let ls := coarsenConjs ls
    let rs := coarsenConjs rs
    if envWorkingCap < ls.length * rs.length then ([], true)
    else ((pairs ls rs).map (fun p => mergeEnvConj p.1 p.2), false)
  else ((pairs ls rs).map (fun p => mergeEnvConj p.1 p.2), false)

/-- `envExpr.envelope`: the conjunctions, and whether the node is the top envelope. -/
def EnvExpr.envelope : EnvExpr → List Conj × Bool
  | .or l r =>
    match l.envelope, r.envelope with
    | (ls, lg), (rs, rg) => if lg || rg then ([], true) else (ls ++ rs, false)
  | .and l r =>
    match l.envelope, r.envelope with
    | (_, true), (_, true) => ([], true)
    | (_, true), (rs, false) => (rs, false)
    | (ls, false), (_, true) => (ls, false)
    | (ls, false), (rs, false) => meetEnvelopes ls rs
  | .not => (envTop, false)
  | .fn c => callEnvelope c

/-- `deriveEnvelope`: nothing when no structure survives. -/
def deriveEnvelope (rule : Bytes) : Option (List Conj) :=
  match envParse rule with
  | .error _ => none
  | .ok expr =>
    match expr.envelope with
    | (conjs, glob) => if glob || conjs == [] then none else some conjs

/-! ### Rendering -/

/-- `GlobalEnvelope`: any host, every path. -/
def globalEnvelope : List Matcher := [{ path := wildcard }]

/-- The loop body of `normalizeEnvelope`. -/
def normalizeMatcher (m : Matcher) : Matcher :=
  let m := if m.hostKind = .traefik ∧ isASCII m.host = false then { m with host := [], hostKind := .any } else m
  let m := if m.host = [] then { m with hostKind := .any } else m
  let text := (cutSuffix m.path wildcard).1
  let m :=
    if containsAny text envMetaChars = true ∨ containsByte text (ch '%') = true then
      { m with path := wildcard, pathKind := .any }
    else m
  { m with peerIPCIDRs := [], middlewares := [], hints := {} }

def normalizeEnvelope (ms : List Matcher) : List Matcher := ms.map normalizeMatcher

/-- The comparison of `sortMatchers`: `a` does not come after `b`. -/
def matcherOrder (a b : Matcher) : Bool :=
  if a.host ≠ b.host then decide (a.host < b.host)
  else if a.hostKind ≠ b.hostKind then decide (a.hostKind.rank ≤ b.hostKind.rank)
  else if a.path ≠ b.path then decide (a.path < b.path)
  else decide (a.pathKind.rank ≤ b.pathKind.rank)

def sortMatchers (ms : List Matcher) : List Matcher :=
  ms.insertionSort (fun a b => matcherOrder a b = true)

/-- `absorbMatchers`: drop every element another one covers. -/
def absorbMatchers (ms : List Matcher) : List Matcher := absorb matcherLE (sortMatchers ms)

def envelopeOf (ms : List Matcher) : List Matcher := absorbMatchers (normalizeEnvelope ms)

/-- `renderEnvelope`: the full expansion, else the host-only one, else the global envelope. -/
def renderEnvelope (conjs : List Conj) : List Matcher :=
  match conjsToMatchers conjs with
  | .ok ms => envelopeOf ms
  | .error _ =>
    match conjsToMatchers (coarsenConjs conjs) with
    | .ok ms => envelopeOf ms
    | .error _ => globalEnvelope

def ruleEnvelope (rule : Bytes) : List Matcher :=
  if trimSpace rule = [] then []
  else match deriveEnvelope rule with
    | none => globalEnvelope
    | some conjs => renderEnvelope conjs

end Statute.Docker
