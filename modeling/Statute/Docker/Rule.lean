import Statute.Base.Descent
import Statute.Docker.Lex
import Statute.Docker.Match
import Mathlib.Data.List.Sort

/-!
# The strict rule parser

`internal/docker/rule.go`: the Traefik router rules statute serves.  A rule is lexed, parsed into
an or/and tree of matcher calls, expanded into conjunctions, and flattened into matchers.

Each step that can refuse the rule returns a `RuleError`, one constructor for each message of the
source with the values the message quotes.
-/

namespace Statute.Docker

open Statute.Base

/-! ### Errors -/

/-- Why a rule is refused. -/
inductive RuleError where
  | lex (e : LexError)
  | unexpectedEnd
  | trailing (t : Token)
  | expectedMatcher (t : Token)
  | expected (what : Token) (got : Option Token)
  | unterminatedCall (fn : Bytes)
  | argumentAfterComma (fn : Bytes)
  | commaOrParen (fn : Bytes)
  | unexpectedInCall (t : Token) (fn : Bytes)
  | noArguments (fn : Bytes)
  | notLiteralHost (a : Bytes)
  | notLiteralPath (fn a : Bytes)
  | invalidClientIP
  | unsupportedMatcher (fn : Bytes)
  | tooManyMatchers
  | multiplePaths
  | disjointHosts
  | disjointPeers
deriving DecidableEq, Repr

/-! ### Parsing -/

/-- A matcher call. -/
structure Call where
  name : Bytes
  args : List Bytes
deriving DecidableEq, Repr

inductive RuleExpr where
  | or (left right : RuleExpr)
  | and (left right : RuleExpr)
  | fn (call : Call)
deriving DecidableEq, Repr

def startsString : List Token → Bool
  | .string _ :: _ => true
  | _ => false

/-- `ruleParser.parseArgs`: strings separated by single commas, up to the closing parenthesis. -/
def parseRuleArgs (fn : Bytes) : List Bytes → List Token → Except RuleError (List Bytes × List Token)
  | _, [] => .error (.unterminatedCall fn)
  | args, .rparen :: rest => .ok (args, rest)
  | _, [.string _] => .error (.unterminatedCall fn)
  | args, .string v :: .comma :: rest =>
    if startsString rest then parseRuleArgs fn (args ++ [v]) rest
    else .error (.argumentAfterComma fn)
  | args, .string v :: .rparen :: rest => .ok (args ++ [v], rest)
  | _, .string _ :: _ :: _ => .error (.commaOrParen fn)
  | _, t :: _ => .error (.unexpectedInCall t fn)

theorem parseRuleArgs_length (fn : Bytes) (args : List Bytes) (toks : List Token)
    (out : List Bytes) (rest : List Token) (h : parseRuleArgs fn args toks = .ok (out, rest)) :
    rest.length ≤ toks.length := by
  fun_induction parseRuleArgs fn args toks with
  | case1 | case3 | case5 | case7 | case8 => cases h
  | case2 args rest' =>
    simp only [Except.ok.injEq, Prod.mk.injEq] at h
    simp [h.2]
  | case4 args v rest' hs ih =>
    have := ih h
    simp only [List.length_cons]
    omega
  | case6 args v rest' =>
    simp only [Except.ok.injEq, Prod.mk.injEq] at h
    rw [← h.2, List.length_cons, List.length_cons]
    omega

/-- The operand of `ruleParser.parseTerm` that is not parenthesised: a matcher call. -/
def parseRuleCall (t : Token) (rest : List Token) : Except RuleError (Call × List Token) :=
  match t with
  | .ident name =>
    match rest with
    | .lparen :: rest' =>
      match parseRuleArgs name [] rest' with
      | .error e => .error e
      | .ok (args, rest'') => .ok (⟨name, args⟩, rest'')
    | _ => .error (.expected .lparen rest.head?)
  | _ => .error (.expectedMatcher t)

theorem parseRuleCall_length (t : Token) (rest : List Token) (c : Call) (rest' : List Token)
    (h : parseRuleCall t rest = .ok (c, rest')) : rest'.length ≤ rest.length := by
  unfold parseRuleCall at h
  split at h
  · split at h
    · split at h
      · cases h
      · rename_i args rest'' hargs
        simp only [Except.ok.injEq, Prod.mk.injEq] at h
        have := parseRuleArgs_length _ _ _ _ _ hargs
        rw [← h.2, List.length_cons]
        omega
    · cases h
  · cases h

/-- The strict grammar: no negation. -/
def ruleGrammar : Grammar Token Call RuleError where
  isOr t := t == .or
  isAnd t := t == .and
  isNot _ := false
  isOpen t := t == .lparen
  isClose t := t == .rparen
  leaf := parseRuleCall
  unexpectedEnd := .unexpectedEnd
  expectedClose got := .expected .rparen got
  trailing t := .trailing t
  leaf_le := parseRuleCall_length

/-- The tree `ruleParser` builds; the grammar has no negation to build from. -/
def ruleAlgebra : Algebra Call RuleExpr where
  or := .or
  and := .and
  not e := e
  leaf := .fn

def ruleTree (rule : Bytes) : Except RuleError RuleExpr :=
  match lexRule rule with
  | .error e => .error (.lex e)
  | .ok toks => parse ruleGrammar ruleAlgebra toks

/-! ### Expansion -/

/-- `conj`: an any-of host set (empty means any host), an any-of peer set (empty means any peer)
and at most one path constraint. -/
structure Conj where
  hosts : List Bytes := []
  peers : List Prefix := []
  path : Bytes := []
  byPrefix : Bool := false
  pathSet : Bool := false
deriving DecidableEq

def maxRuleMatchers : ℕ := 64

/-- `envMetaChars`: Traefik placeholders and regexp syntax. -/
def envMetaChars : Bytes := lit "\x7b\x7d^$*+?()[]|\\"

def literalArg (s : Bytes) : Bool := !containsAny s envMetaChars

def rulePathArg (a : Bytes) : Bool := literalArg a && hasPrefix a (lit "/") && !pathHasPercent a

def ruleHostArg (a : Bytes) : Bool := a != [] && !traefikHostForbidden a && isASCII a

/-- `intersectRuleHosts`: raw spellings are compared. -/
def intersectRuleHosts (a b : List Bytes) : Except RuleError (List Bytes) :=
  if a = [] then .ok b
  else if b = [] then .ok a
  else
    let intersection := a.flatMap (fun left => (b.filter (fun right => left == right)).map (fun _ => left))
    if intersection = [] then .error .disjointHosts else .ok intersection

/-- The pair step of `intersectRulePeers`: the longer of two nested prefixes. -/
def meetPrefix (l r : Prefix) : List Prefix :=
  if l.bits ≤ r.bits ∧ l.contains r.addr = true then [r]
  else if r.bits ≤ l.bits ∧ r.contains l.addr = true then [l]
  else []

/-- `slices.Compact`. -/
def compact {α : Type} [DecidableEq α] : List α → List α
  | [] => []
  | [x] => [x]
  | x :: y :: rest => if x = y then compact (y :: rest) else x :: compact (y :: rest)

/-- `slices.Sort` and `slices.Compact` of CIDR texts. -/
def sortCIDRs (ps : List Prefix) : List Prefix :=
  compact (ps.insertionSort (fun a b => ¬ b.text < a.text))

def intersectRulePeers (a b : List Prefix) : Except RuleError (List Prefix) :=
  if a = [] then .ok b
  else if b = [] then .ok a
  else
    let intersection := a.flatMap (fun l => b.flatMap (fun r => meetPrefix l r))
    if intersection = [] then .error .disjointPeers else .ok (sortCIDRs intersection)

/-- `mergeConj`: host sets and peer sets intersect, two path constraints are refused. -/
def mergeConj (a b : Conj) : Except RuleError Conj :=
  match intersectRuleHosts a.hosts b.hosts with
  | .error e => .error e
  | .ok hosts =>
    match intersectRulePeers a.peers b.peers with
    | .error e => .error e
    | .ok peers =>
      if b.pathSet then
        if a.pathSet then .error .multiplePaths
        else .ok { hosts := hosts, peers := peers, path := b.path, byPrefix := b.byPrefix, pathSet := true }
      else .ok { a with hosts := hosts, peers := peers }

/-- The double loop of `andExpr.expand`, over the pairs in order. -/
def mergePairs : List Conj → List (Conj × Conj) → Except RuleError (List Conj)
  | out, [] => .ok out
  | out, (l, r) :: rest =>
    match mergeConj l r with
    | .error e => .error e
    | .ok m =>
      if maxRuleMatchers < (out ++ [m]).length then .error .tooManyMatchers
      else mergePairs (out ++ [m]) rest

/-- The pairs of two lists in the order of nested loops. -/
def pairs {α β : Type} (ls : List α) (rs : List β) : List (α × β) :=
  ls.flatMap (fun l => rs.map (fun r => (l, r)))

/-- The prefix a `ClientIP` argument names: an address alone stands for itself, unmapped. -/
def clientIPPrefix (value : Bytes) : Option Prefix :=
  match parseAddr value with
  | some ip => some (Prefix.single ip.unmap).masked
  | none => (parsePrefix value).map Prefix.masked

/-- The argument loop of `ClientIP`. -/
def clientIPPrefixes : List Bytes → Option (List Prefix)
  | [] => some []
  | a :: as =>
    match clientIPPrefix a, clientIPPrefixes as with
    | some p, some ps => some (p :: ps)
    | _, _ => none

def expandPathMatcher (name : Bytes) (args : List Bytes) (byPrefix : Bool) :
    Except RuleError (List Conj) :=
  match args.find? (fun a => !rulePathArg a) with
  | some a => .error (.notLiteralPath name a)
  | none => .ok (args.map (fun a => { path := a, byPrefix := byPrefix, pathSet := true }))

/-- `fnExpr.expand`. -/
def expandCall (c : Call) : Except RuleError (List Conj) :=
  if c.args = [] then .error (.noArguments c.name)
  else if c.name = lit "Host" then
    match c.args.find? (fun a => !ruleHostArg a) with
    | some a => .error (.notLiteralHost a)
    | none => .ok [{ hosts := c.args }]
  else if c.name = lit "ClientIP" then
    match clientIPPrefixes c.args with
    | some cidrs => .ok [{ peers := sortCIDRs cidrs }]
    | none => .error .invalidClientIP
  else if c.name = lit "Path" then expandPathMatcher c.name c.args false
  else if c.name = lit "PathPrefix" then expandPathMatcher c.name c.args true
  else .error (.unsupportedMatcher c.name)

/-- `ruleExpr.expand`: the disjunctive normal form. -/
def RuleExpr.expand : RuleExpr → Except RuleError (List Conj)
  | .or l r =>
    match l.expand with
    | .error e => .error e
    | .ok ls =>
      match r.expand with
      | .error e => .error e
      | .ok rs => .ok (ls ++ rs)
  | .and l r =>
    match l.expand with
    | .error e => .error e
    | .ok ls =>
      match r.expand with
      | .error e => .error e
      | .ok rs => mergePairs [] (pairs ls rs)
  | .fn c => expandCall c

/-! ### Matchers -/

/-- The path and path kind of a conjunction; `PathPrefix("/")` matches every path. -/
def Conj.pattern (c : Conj) : Bytes × PathKind :=
  if c.pathSet then
    if c.byPrefix then
      if c.path = lit "/" then (wildcard, .any) else (c.path, .byte)
    else (c.path, .exact)
  else (wildcard, .any)

/-- One matcher of a conjunction, for one host of its set. -/
def Conj.matcher (c : Conj) (h : Bytes) : Matcher :=
  let h := toLower h
  let m : Matcher := { path := c.pattern.1, pathKind := c.pattern.2, peerIPCIDRs := c.peers }
  if h = [] then m else { m with host := h, hostKind := .traefik }

/-- The matchers of a conjunction: one for each host, or one for any host. -/
def Conj.matchers (c : Conj) : List Matcher :=
  (if c.hosts = [] then [[]] else c.hosts).map c.matcher

/-- `conjsToMatchers`: the source stops at the first matcher over the limit. -/
def conjsToMatchers (conjs : List Conj) : Except RuleError (List Matcher) :=
  let out := conjs.flatMap Conj.matchers
  if maxRuleMatchers < out.length then .error .tooManyMatchers else .ok out

def parseRule (rule : Bytes) : Except RuleError (List Matcher) :=
  match ruleTree rule with
  | .error e => .error e
  | .ok expr =>
    match expr.expand with
    | .error e => .error e
    | .ok conjs => conjsToMatchers conjs

end Statute.Docker
