import Statute.Provider.Dispatch
import Statute.Tls.Names

/-!
# Client authentication by name

The scoped client-certificate policies of `clientauth.go` and `clientauth_table.go`: the table a
listener compiles, with equivalent policies interned under one id, the selection by name that
handshake and admission share, and the admission test that compares the two.

* The compiled table selects for every name what the declarations select, up to the spelling of the
  CA files (`selectPolicy_represents`).
* An admitted request that reaches a route by its host is served under the policy of the handshake
  (`admitted_route_policy`).  The router compares a bracketed host with its brackets and the admission
  without them, so this holds for the bracketed texts that can name no scope, those with a colon and
  no dot, and fails for others (`bracketed_host_policy_differs`).
-/

namespace Statute.Tls

open Statute.Base Statute.Provider

/-! ### Declarations -/

/-- `resolved.ClientAuthMode`, and `tls.ClientAuthType` after compilation. -/
inductive ClientAuthMode where
  | none
  | request
  | requireAny
  | verifyIfGiven
  | requireAndVerify
deriving DecidableEq, Repr

structure ClientAuth where
  mode : ClientAuthMode
  caFiles : List Bytes := []

/-- `resolved.ClientAuthPolicy`. -/
structure ScopedPolicy where
  hosts : List Bytes
  policy : ClientAuth

/-- The client-authentication part of `resolved.Listener`. -/
structure Listener where
  clientAuth : Option ClientAuth := none
  clientAuthPolicies : List ScopedPolicy := []

/-! ### Resolution -/

def ClientAuthMode.verifies (mode : ClientAuthMode) : Bool :=
  mode == .verifyIfGiven || mode == .requireAndVerify

/-- What `resolveClientAuth` refuses the policies of an HTTPS listener with. -/
inductive ResolveError where
  /-- `hosts`: at least one hostname required -/
  | noHosts
  /-- `hosts[i]`: hostname is empty -/
  | emptyHost (i : ℕ)
  /-- `hosts[i]`: invalid SNI hostname -/
  | invalidHost (i : ℕ) (name : Bytes)
  /-- `hosts[i]`: an asterisk that is no leading label -/
  | wildcard (i : ℕ)
  /-- the hostname is claimed by two client-auth bindings -/
  | claimed (host : Bytes)
  /-- `ca_files[i]`: path is empty -/
  | emptyPath (i : ℕ)
  /-- the mode requires at least one CA file -/
  | missingCA (mode : ClientAuthMode)
  /-- `client_auth_policies[i]` -/
  | binding (i : ℕ) (err : ResolveError)
deriving DecidableEq

def validateTLSWildcard (canonical : Bytes) : Bool :=
  canonical != lit "*" && canonical != lit "*." &&
    !containsByte (cutPrefix canonical (lit "*.")).1 (ch '*')

/-- The bytes that no SNI hostname holds. -/
def refusedBytes : Bytes := lit ":/\\ \t\r\n@?#[]%"

/-- The loop of `resolveScopedClientAuth`; the names it claims are those it returns. -/
def resolveHosts (idna : Idna) : List Bytes → ℕ → List Bytes → Except ResolveError (List Bytes)
  | _, _, [] => .ok []
  | claimed, i, name :: names =>
    let host := canonicalTLSName idna name
    if host = [] then .error (.emptyHost i)
    else if containsAny host refusedBytes then .error (.invalidHost i name)
    else if validateTLSWildcard host = false then .error (.wildcard i)
    else if claimed.contains host then .error (.claimed host)
    else
      match resolveHosts idna (host :: claimed) (i + 1) names with
      | .error err => .error err
      | .ok hosts => .ok (host :: hosts)

def resolveClientAuthPolicy (p : ClientAuth) : Except ResolveError ClientAuth :=
  let caFiles := p.caFiles.map trimSpace
  match caFiles.findIdx? (· == []) with
  | some i => .error (.emptyPath i)
  | none =>
    if p.mode.verifies ∧ caFiles = [] then .error (.missingCA p.mode)
    else .ok { p with caFiles := caFiles }

def resolveScopedClientAuth (idna : Idna) (claimed : List Bytes) (p : ScopedPolicy) :
    Except ResolveError ScopedPolicy :=
  if p.hosts = [] then .error .noHosts
  else
    match resolveHosts idna claimed 0 p.hosts with
    | .error err => .error err
    | .ok hosts => (resolveClientAuthPolicy p.policy).map (ScopedPolicy.mk hosts)

/-- The loop of `resolveClientAuth`. -/
def resolveScopes (idna : Idna) :
    List Bytes → ℕ → List ScopedPolicy → Except ResolveError (List ScopedPolicy)
  | _, _, [] => .ok []
  | claimed, i, p :: rest =>
    match resolveScopedClientAuth idna claimed p with
    | .error err => .error (.binding i err)
    | .ok scope => (resolveScopes idna (scope.hosts ++ claimed) (i + 1) rest).map (scope :: ·)

/-- `resolveClientAuth` of an HTTPS listener with at most one policy of its own. -/
def resolveClientAuth (idna : Idna) (l : Listener) : Except ResolveError Listener :=
  match l.clientAuth.map resolveClientAuthPolicy with
  | some (.error err) => .error err
  | some (.ok policy) => (resolveScopes idna [] 0 l.clientAuthPolicies).map (Listener.mk (some policy))
  | none => (resolveScopes idna [] 0 l.clientAuthPolicies).map (Listener.mk none)

/-- The scopes of a resolved listener: canonical names without a byte that no SNI hostname holds. -/
def Listener.Resolved (idna : Idna) (l : Listener) : Prop :=
  ∀ p ∈ l.clientAuthPolicies, ∀ host ∈ p.hosts,
    canonicalTLSName idna host = host ∧ containsAny host refusedBytes = false

/-- The certificates of the readable CA files, as their DER. -/
abbrev CAFiles := Bytes → Option (List Bytes)

/-! ### Compilation -/

/-- `compiledClientAuth`, without the pool that repeats its certificates. -/
structure CompiledClientAuth where
  id : ℕ := 0
  mode : ClientAuthMode
  der : List Bytes := []
deriving DecidableEq

/-- What `buildClientAuthTable` fails with. -/
inductive AuthError where
  /-- the mode requires at least one CA file -/
  | missingCA (mode : ClientAuthMode)
  /-- client CA file: unreadable, or without certificates -/
  | caFile (path : Bytes)
  /-- the hostname is claimed twice on this listener -/
  | claimedTwice (host : Bytes)
deriving DecidableEq

def loadClientCACertificates (files : CAFiles) (path : Bytes) : Except AuthError (List Bytes) :=
  match files path with
  | some (cert :: certs) => .ok (cert :: certs)
  | _ => .error (.caFile path)

def compileClientAuth (files : CAFiles) : Option ClientAuth → Except AuthError CompiledClientAuth
  | none => .ok { mode := .none }
  | some policy =>
    if policy.caFiles = [] then
      if policy.mode.verifies then .error (.missingCA policy.mode) else .ok { mode := policy.mode }
    else do
      let certs ← policy.caFiles.mapM (loadClientCACertificates files)
      return { mode := policy.mode, der := textSet certs.flatten }

/-- `internClientAuth`: an equivalent policy, or the candidate under the next id. -/
def internClientAuth (policies : List CompiledClientAuth) (candidate : CompiledClientAuth) :
    List CompiledClientAuth × CompiledClientAuth :=
  match policies.find? (fun p => p.mode == candidate.mode && p.der == candidate.der) with
  | some existing => (policies, existing)
  | none =>
    let fresh := { candidate with id := policies.length }
    (policies ++ [fresh], fresh)

structure ClientAuthTable where
  names : NameIndex CompiledClientAuth := {}
  defaultAuth : CompiledClientAuth
  isScoped : Bool

/-- `tlsNameIndex.add` for every host of one declaration. -/
def addHosts {β : Type} (idna : Idna) (value : β) :
    NameIndex β → List Bytes → Except AuthError (NameIndex β)
  | index, [] => .ok index
  | index, host :: hosts =>
    match index.add idna host value with
    | none => .error (.claimedTwice (canonicalTLSName idna host))
    | some index => addHosts idna value index hosts

/-- The loop of `buildClientAuthTable`. -/
def addPolicies (idna : Idna) (files : CAFiles) :
    List CompiledClientAuth → NameIndex CompiledClientAuth → List ScopedPolicy →
      Except AuthError (List CompiledClientAuth × NameIndex CompiledClientAuth)
  | policies, names, [] => .ok (policies, names)
  | policies, names, assignment :: rest => do
    let policy ← compileClientAuth files (some assignment.policy)
    let interned := internClientAuth policies policy
    let names ← addHosts idna interned.2 names assignment.hosts
    addPolicies idna files interned.1 names rest

def buildClientAuthTable (idna : Idna) (files : CAFiles) (l : Listener) :
    Except AuthError ClientAuthTable := do
  let fallback ← compileClientAuth files l.clientAuth
  let built ← addPolicies idna files [fallback] {} l.clientAuthPolicies
  return { names := built.2, defaultAuth := fallback, isScoped := !l.clientAuthPolicies.isEmpty }

def ClientAuthTable.selectPolicy (idna : Idna) (table : ClientAuthTable) (name : Bytes) :
    CompiledClientAuth :=
  (table.names.lookup idna name).getD table.defaultAuth

/-- The declarations of `indexClientAuthPolicies`. -/
def addDeclarations (idna : Idna) :
    NameIndex ClientAuth → List ScopedPolicy → Except AuthError (NameIndex ClientAuth)
  | index, [] => .ok index
  | index, binding :: rest => do
    let index ← addHosts idna binding.policy index binding.hosts
    addDeclarations idna index rest

/-- `indexClientAuthPolicies`: the offline selector over the declarations. -/
def indexClientAuthPolicies (idna : Idna) (l : Listener) : Except AuthError (NameIndex ClientAuth) :=
  addDeclarations idna {} l.clientAuthPolicies

/-! ### Admission -/

/-- `net.ParseIP` succeeds. -/
def isIP (s : Bytes) : Bool :=
  match parseAddr s with
  | some a => a.zone == []
  | none => false

def validAuthorityPort (port : Bytes) : Bool := (parsePort port).isSome

/-- The end of `clientAuthAuthority`: a name is canonicalised, unless a byte rules it out. -/
def authorityName (idna : Idna) (name : Bytes) : Option Bytes :=
  if name = [] ∨ containsAny name (lit " /\\\t\r\n@?#[]%*") then none
  else
    let host := canonicalTLSName idna name
    if host = [] then none else some host

def clientAuthAuthority (idna : Idna) (name : Bytes) : Option Bytes :=
  if hasPrefix name (lit "[") && hasSuffix name (lit "]") then
    let ip := (cutSuffix (cutPrefix name (lit "[")).1 (lit "]")).1
    if isIP ip then some ip else none
  else if containsByte name (ch ':') then
    match splitHostPort name with
    | none => none
    | some (host, port) =>
      if validAuthorityPort port = false then none
      else if containsByte host (ch ':') then if isIP host then some host else none
      else authorityName idna host
  else authorityName idna name

/-- What the admission reads of a request: `r.Host` and, under TLS, the SNI name. -/
structure AuthRequest where
  host : Bytes
  serverName : Option Bytes

/-- `clientAuthAdmission`: whether the request reaches the next handler; otherwise it is answered
with 421. -/
def clientAuthAdmission (idna : Idna) (table : ClientAuthTable) (r : AuthRequest) : Bool :=
  if table.isScoped = false then true
  else
    match clientAuthAuthority idna r.host, r.serverName with
    | some host, some serverName =>
      (table.selectPolicy idna host).id == (table.selectPolicy idna serverName).id
    | _, _ => false

/-! ### Interned policies -/

/-- Every policy stands at the index that is its id. -/
def Interned (policies : List CompiledClientAuth) : Prop :=
  ∀ p ∈ policies, policies[p.id]? = some p

variable {policies : List CompiledClientAuth}

theorem Interned.eq_of_id (h : Interned policies) {p q : CompiledClientAuth} (hp : p ∈ policies)
    (hq : q ∈ policies) (hid : p.id = q.id) : p = q := by
  have hpq := h p hp
  rw [hid, h q hq] at hpq
  exact (Option.some.inj hpq).symm

theorem internClientAuth_spec (h : Interned policies) (candidate : CompiledClientAuth) :
    Interned (internClientAuth policies candidate).1 ∧
      policies ⊆ (internClientAuth policies candidate).1 ∧
      (internClientAuth policies candidate).2 ∈ (internClientAuth policies candidate).1 ∧
      (internClientAuth policies candidate).2.mode = candidate.mode ∧
      (internClientAuth policies candidate).2.der = candidate.der := by
  unfold internClientAuth
  cases hfind : policies.find? (fun p => p.mode == candidate.mode && p.der == candidate.der) with
  | some existing =>
    have hsame := List.find?_some hfind
    rw [Bool.and_eq_true, beq_iff_eq, beq_iff_eq] at hsame
    exact ⟨h, List.Subset.refl _, List.mem_of_find?_eq_some hfind, hsame.1, hsame.2⟩
  | none =>
    refine ⟨?_, List.subset_append_left _ _, by simp, rfl, rfl⟩
    intro p hp
    rcases List.mem_append.1 hp with hp | hp
    · have hat := h p hp
      have hlt : p.id < policies.length := (List.getElem?_eq_some_iff.1 hat).1
      rw [List.getElem?_append_left hlt, hat]
    · rw [List.mem_singleton.1 hp]
      simp

/-! ### Table and declarations -/

def certificates (files : CAFiles) (policy : Option ClientAuth) : List Bytes :=
  match policy with
  | none => []
  | some p => p.caFiles.flatMap (fun path => (files path).getD [])

/-- The mode of a declaration; without one, no certificate is asked for. -/
def effectiveMode (policy : Option ClientAuth) : ClientAuthMode :=
  match policy with
  | none => .none
  | some p => p.mode

/-- The compiled policy has the mode and the certificates of the declaration. -/
def Represents (files : CAFiles) (policy : Option ClientAuth) (c : CompiledClientAuth) : Prop :=
  c.mode = effectiveMode policy ∧ ∀ d, d ∈ c.der ↔ d ∈ certificates files policy

/-- Two declarations ask for the same: mode and set of CA certificates. -/
def SamePolicy (files : CAFiles) (p q : Option ClientAuth) : Prop :=
  effectiveMode p = effectiveMode q ∧ ∀ d, d ∈ certificates files p ↔ d ∈ certificates files q

variable {files : CAFiles} {c : CompiledClientAuth}

theorem Represents.samePolicy {p q : Option ClientAuth} (hp : Represents files p c)
    (hq : Represents files q c) : SamePolicy files p q :=
  ⟨hp.1.symm.trans hq.1, fun d => (hp.2 d).symm.trans (hq.2 d)⟩

theorem mapM_load {paths : List Bytes} {certs : List (List Bytes)}
    (h : paths.mapM (loadClientCACertificates files) = .ok certs) :
    certs.flatten = paths.flatMap (fun path => (files path).getD []) := by
  induction paths generalizing certs with
  | nil =>
    cases h
    rfl
  | cons path paths ih =>
    rw [List.mapM_cons] at h
    cases hload : loadClientCACertificates files path with
    | error err => simp [hload, bind, Except.bind] at h
    | ok loaded =>
      cases hrest : paths.mapM (loadClientCACertificates files) with
      | error err => simp [hload, hrest, bind, Except.bind] at h
      | ok rest =>
        simp only [hload, hrest, bind, Except.bind, pure, Except.pure, Except.ok.injEq] at h
        subst h
        have hfile : files path = some loaded := by
          unfold loadClientCACertificates at hload
          split at hload
          · rename_i hfiles
            rw [hfiles, Except.ok.inj hload]
          · cases hload
        simp [ih hrest, hfile]

theorem compileClientAuth_represents {policy : Option ClientAuth}
    (h : compileClientAuth files policy = .ok c) : Represents files policy c := by
  cases policy with
  | none =>
    cases h
    exact ⟨rfl, fun d => Iff.rfl⟩
  | some p =>
    simp only [compileClientAuth] at h
    split at h
    · rename_i hempty
      split at h
      · cases h
      · cases h
        exact ⟨rfl, fun d => by simp [certificates, hempty]⟩
    · cases hcerts : p.caFiles.mapM (loadClientCACertificates files) with
      | error err => simp [hcerts, bind, Except.bind] at h
      | ok certs =>
        simp only [hcerts, bind, Except.bind, pure, Except.pure, Except.ok.injEq] at h
        subst h
        exact ⟨rfl, fun d => by rw [mem_textSet, mapM_load hcerts]; rfl⟩

theorem compileClientAuth_id {policy : Option ClientAuth}
    (h : compileClientAuth files policy = .ok c) : c.id = 0 := by
  cases policy with
  | none =>
    cases h
    rfl
  | some p =>
    simp only [compileClientAuth] at h
    split at h
    · split at h
      · cases h
      · cases h
        rfl
    · cases hcerts : p.caFiles.mapM (loadClientCACertificates files) with
      | error err => simp [hcerts, bind, Except.bind] at h
      | ok certs =>
        simp only [hcerts, bind, Except.bind, pure, Except.pure, Except.ok.injEq] at h
        rw [← h]

/-- Two lists of entries with the same names and related values. -/
def EntriesRel {α β : Type} (R : α → β → Prop) : List (Bytes × α) → List (Bytes × β) → Prop :=
  List.Forall₂ (fun x y => x.1 = y.1 ∧ R x.2 y.2)

/-- Two indexes with the same names and related values. -/
structure IndexRel {α β : Type} (R : α → β → Prop) (a : NameIndex α) (b : NameIndex β) : Prop where
  exact : EntriesRel R a.exact b.exact
  wildcards : EntriesRel R a.wildcards b.wildcards

section IndexRel

variable {α β : Type} {R S : α → β → Prop}

theorem EntriesRel.lookup {a : List (Bytes × α)} {b : List (Bytes × β)} (h : EntriesRel R a b)
    (name : Bytes) : Option.Rel R (a.lookup name) (b.lookup name) := by
  induction h with
  | nil => exact .none
  | @cons x y xs ys hxy _ ih =>
    obtain ⟨k, v⟩ := x
    obtain ⟨k', v'⟩ := y
    obtain ⟨hk, hv⟩ := hxy
    dsimp only at hk hv
    subst hk
    rw [List.lookup_cons, List.lookup_cons]
    cases name == k with
    | true => exact .some hv
    | false => exact ih

theorem EntriesRel.lookup_isSome {a : List (Bytes × α)} {b : List (Bytes × β)}
    (h : EntriesRel R a b) (name : Bytes) : (a.lookup name).isSome = (b.lookup name).isSome := by
  have hrel := h.lookup name
  generalize a.lookup name = x at hrel
  generalize b.lookup name = y at hrel
  cases hrel <;> rfl

theorem EntriesRel.append {a : List (Bytes × α)} {b : List (Bytes × β)} (h : EntriesRel R a b)
    (name : Bytes) {x : α} {y : β} (hxy : R x y) :
    EntriesRel R (a ++ [(name, x)]) (b ++ [(name, y)]) :=
  List.rel_append h (.cons ⟨rfl, hxy⟩ .nil)

variable {a : NameIndex α} {b : NameIndex β}

theorem IndexRel.mono (h : IndexRel R a b) (hRS : ∀ x y, R x y → S x y) : IndexRel S a b :=
  ⟨h.exact.imp (fun _ _ hxy => ⟨hxy.1, hRS _ _ hxy.2⟩),
    h.wildcards.imp (fun _ _ hxy => ⟨hxy.1, hRS _ _ hxy.2⟩)⟩

theorem IndexRel.lookup (idna : Idna) (h : IndexRel R a b) (name : Bytes) :
    Option.Rel R (a.lookup idna name) (b.lookup idna name) := by
  unfold NameIndex.lookup NameIndex.lookupCanonical
  have hexact := h.exact.lookup (canonicalTLSName idna name)
  cases ha : a.exact.lookup (canonicalTLSName idna name) with
  | some x =>
    cases hb : b.exact.lookup (canonicalTLSName idna name) with
    | some y => simpa [ha, hb] using hexact
    | none => rw [ha, hb] at hexact; cases hexact
  | none =>
    cases hb : b.exact.lookup (canonicalTLSName idna name) with
    | some y => rw [ha, hb] at hexact; cases hexact
    | none =>
      dsimp only
      split
      · split
        · exact h.wildcards.lookup _
        · exact .none
      · exact .none

theorem IndexRel.add (idna : Idna) {b' : NameIndex β} (h : IndexRel R a b) {x : α} {y : β}
    (hxy : R x y) {host : Bytes} (hadd : b.add idna host y = some b') :
    ∃ a', a.add idna host x = some a' ∧ IndexRel R a' b' := by
  unfold NameIndex.add at hadd ⊢
  dsimp only at hadd ⊢
  split at hadd
  · rename_i hmark
    obtain ⟨hfree, hb'⟩ := Option.ite_none_left_eq_some.1 hadd
    rw [if_pos hmark, h.wildcards.lookup_isSome, if_neg hfree, ← Option.some.inj hb']
    exact ⟨_, rfl, h.exact, h.wildcards.append _ hxy⟩
  · rename_i hmark
    obtain ⟨hfree, hb'⟩ := Option.ite_none_left_eq_some.1 hadd
    rw [if_neg hmark, h.exact.lookup_isSome, if_neg hfree, ← Option.some.inj hb']
    exact ⟨_, rfl, h.exact.append _ hxy, h.wildcards⟩

theorem IndexRel.addHosts (idna : Idna) {b' : NameIndex β} (h : IndexRel R a b) {x : α} {y : β}
    (hxy : R x y) {hosts : List Bytes} (hadd : addHosts idna y b hosts = .ok b') :
    ∃ a', addHosts idna x a hosts = .ok a' ∧ IndexRel R a' b' := by
  induction hosts generalizing a b with
  | nil =>
    cases hadd
    exact ⟨a, rfl, h⟩
  | cons host hosts ih =>
    simp only [Tls.addHosts] at hadd ⊢
    cases hb : b.add idna host y with
    | none => simp [hb] at hadd
    | some b₁ =>
      rw [hb] at hadd
      obtain ⟨a₁, ha, hrel⟩ := h.add idna hxy hb
      rw [ha]
      exact ih hrel hadd

end IndexRel

/-- A declaration and a policy of the table that represents it. -/
def TableRel (files : CAFiles) (policies : List CompiledClientAuth) (d : ClientAuth)
    (c : CompiledClientAuth) : Prop :=
  Represents files (some d) c ∧ c ∈ policies

variable {idna : Idna}

/-- The loop of `buildClientAuthTable` follows the declarations. -/
theorem addPolicies_spec {l : List ScopedPolicy} {policies' : List CompiledClientAuth}
    {decl : NameIndex ClientAuth} {names names' : NameIndex CompiledClientAuth}
    (hinterned : Interned policies) (hrel : IndexRel (TableRel files policies) decl names)
    (h : addPolicies idna files policies names l = .ok (policies', names')) :
    Interned policies' ∧ policies ⊆ policies' ∧
      ∃ decl', addDeclarations idna decl l = .ok decl' ∧
        IndexRel (TableRel files policies') decl' names' := by
  induction l generalizing policies decl names with
  | nil =>
    cases h
    exact ⟨hinterned, List.Subset.refl _, decl, rfl, hrel⟩
  | cons assignment rest ih =>
    simp only [addPolicies, bind, Except.bind] at h
    cases hcompile : compileClientAuth files (some assignment.policy) with
    | error err => simp [hcompile] at h
    | ok policy =>
      simp only [hcompile] at h
      obtain ⟨hinterned₁, hsub, hmem, hmode, hder⟩ := internClientAuth_spec hinterned policy
      have hrepresents : Represents files (some assignment.policy)
          (internClientAuth policies policy).2 := by
        have hpolicy := compileClientAuth_represents hcompile
        exact ⟨hmode.trans hpolicy.1, fun d => by rw [hder]; exact hpolicy.2 d⟩
      have hrel₁ : IndexRel (TableRel files (internClientAuth policies policy).1) decl names :=
        hrel.mono (fun _ _ hxy => ⟨hxy.1, hsub hxy.2⟩)
      cases hhosts : addHosts idna (internClientAuth policies policy).2 names assignment.hosts with
      | error err => simp [hhosts] at h
      | ok names₁ =>
        simp only [hhosts] at h
        obtain ⟨decl₁, hdecl, hrel₂⟩ := hrel₁.addHosts idna ⟨hrepresents, hmem⟩ hhosts
        obtain ⟨hinterned₂, hsub₂, decl', hdecl', hrel'⟩ := ih hinterned₁ hrel₂ h
        refine ⟨hinterned₂, List.Subset.trans hsub hsub₂, decl', ?_, hrel'⟩
        simp only [addDeclarations, bind, Except.bind, hdecl, hdecl']

/-- The declaration that governs a name: the indexed one, or the listener's own. -/
def Listener.declared (idna : Idna) (l : Listener) (name : Bytes) : Option ClientAuth :=
  match indexClientAuthPolicies idna l with
  | .ok index => (index.lookup idna name).or l.clientAuth
  | .error _ => l.clientAuth

/-- **Selection.** The table selects policies under distinct ids that represent the declarations. -/
theorem selectPolicy_represents {l : Listener} {table : ClientAuthTable}
    (h : buildClientAuthTable idna files l = .ok table) :
    ∃ policies, Interned policies ∧ ∀ name, table.selectPolicy idna name ∈ policies ∧
      Represents files (l.declared idna name) (table.selectPolicy idna name) := by
  simp only [buildClientAuthTable, bind, Except.bind, pure, Except.pure] at h
  cases hfallback : compileClientAuth files l.clientAuth with
  | error err => simp [hfallback] at h
  | ok fallback =>
    simp only [hfallback] at h
    cases hbuilt : addPolicies idna files [fallback] {} l.clientAuthPolicies with
    | error err => simp [hbuilt] at h
    | ok built =>
      simp only [hbuilt, Except.ok.injEq] at h
      subst h
      have hstart : Interned [fallback] := by
        intro p hp
        rw [List.mem_singleton.1 hp, compileClientAuth_id hfallback]
        rfl
      have hempty : IndexRel (TableRel files [fallback]) {} {} := ⟨.nil, .nil⟩
      obtain ⟨hinterned, hsub, decl, hdecl, hrel⟩ := addPolicies_spec hstart hempty hbuilt
      refine ⟨built.1, hinterned, ?_⟩
      intro name
      have hdeclared : l.declared idna name = (decl.lookup idna name).or l.clientAuth := by
        simp only [Listener.declared, indexClientAuthPolicies, hdecl]
      rw [hdeclared, ClientAuthTable.selectPolicy]
      cases hd : decl.lookup idna name with
      | none =>
        cases hc : built.2.lookup idna name with
        | some c => have h := hrel.lookup idna name; rw [hd, hc] at h; cases h
        | none => exact ⟨hsub (by simp), compileClientAuth_represents hfallback⟩
      | some d =>
        cases hc : built.2.lookup idna name with
        | none => have h := hrel.lookup idna name; rw [hd, hc] at h; cases h
        | some c =>
          have h := hrel.lookup idna name
          rw [hd, hc] at h
          cases h with
          | some hdc => exact ⟨hdc.2, hdc.1⟩

/-! ### Names that no scope covers -/

/-- The hosts that the resolver leaves are canonical names of declared ones. -/
theorem mem_resolveHosts {claimed names hosts : List Bytes} {i : ℕ}
    (h : resolveHosts idna claimed i names = .ok hosts) :
    ∀ host ∈ hosts, containsAny host refusedBytes = false ∧
      ∃ name ∈ names, host = canonicalTLSName idna name := by
  induction names generalizing claimed i hosts with
  | nil =>
    cases h
    simp
  | cons name names ih =>
    simp only [resolveHosts] at h
    split at h
    · cases h
    split at h
    · cases h
    rename_i hbytes
    split at h
    · cases h
    split at h
    · cases h
    split at h
    · cases h
    rename_i rest hrest
    cases h
    intro host hhost
    rcases List.mem_cons.1 hhost with rfl | hhost
    · exact ⟨Bool.eq_false_iff.2 hbytes, name, List.mem_cons_self, rfl⟩
    · obtain ⟨hclean, n, hn, heq⟩ := ih hrest host hhost
      exact ⟨hclean, n, List.mem_cons_of_mem _ hn, heq⟩

theorem mem_resolveScopes {claimed : List Bytes} {i : ℕ} {declared scopes : List ScopedPolicy}
    (h : resolveScopes idna claimed i declared = .ok scopes) :
    ∀ p ∈ scopes, ∀ host ∈ p.hosts, containsAny host refusedBytes = false ∧
      ∃ q ∈ declared, ∃ name ∈ q.hosts, host = canonicalTLSName idna name := by
  induction declared generalizing claimed i scopes with
  | nil =>
    cases h
    simp
  | cons q declared ih =>
    simp only [resolveScopes] at h
    split at h
    · cases h
    rename_i scope hscope
    cases hrest : resolveScopes idna (scope.hosts ++ claimed) (i + 1) declared with
    | error err => simp [hrest, Except.map] at h
    | ok rest =>
      simp only [hrest, Except.map, Except.ok.injEq] at h
      subst h
      intro p hp host hhost
      rcases List.mem_cons.1 hp with rfl | hp
      · unfold resolveScopedClientAuth at hscope
        split at hscope
        · cases hscope
        split at hscope
        · cases hscope
        rename_i hosts hhosts
        cases hpolicy : resolveClientAuthPolicy q.policy with
        | error err => simp [hpolicy, Except.map] at hscope
        | ok policy =>
          simp only [hpolicy, Except.map, Except.ok.injEq] at hscope
          subst hscope
          obtain ⟨hclean, name, hname, heq⟩ := mem_resolveHosts hhosts host hhost
          exact ⟨hclean, q, List.mem_cons_self, name, hname, heq⟩
      · obtain ⟨hclean, d, hd, hname⟩ := ih hrest p hp host hhost
        exact ⟨hclean, d, List.mem_cons_of_mem _ hd, hname⟩

/-- **Resolution.** A listener whose declared hosts are ASCII resolves to a resolved one. -/
theorem resolved_of_resolveClientAuth {declared l : Listener}
    (hascii : ∀ p ∈ declared.clientAuthPolicies, ∀ host ∈ p.hosts, isASCII host = true)
    (h : resolveClientAuth idna declared = .ok l) : l.Resolved idna := by
  have hscopes : resolveScopes idna [] 0 declared.clientAuthPolicies = .ok l.clientAuthPolicies := by
    unfold resolveClientAuth at h
    cases hrest : resolveScopes idna [] 0 declared.clientAuthPolicies with
    | error err =>
      rw [hrest] at h
      split at h <;> cases h
    | ok scopes =>
      rw [hrest] at h
      split at h
      · cases h
      · cases h
        rfl
      · cases h
        rfl
  intro p hp host hhost
  obtain ⟨hclean, q, hq, name, hname, rfl⟩ := mem_resolveScopes hscopes p hp host hhost
  exact ⟨canonicalTLSName_idem idna (hascii q hq name hname), hclean⟩

theorem addHosts_exact {β : Type} {value : β} {index index' : NameIndex β} {hosts : List Bytes}
    (h : addHosts idna value index hosts = .ok index') :
    ∀ e ∈ index'.exact, e ∈ index.exact ∨ ∃ host ∈ hosts, e.1 = canonicalTLSName idna host := by
  induction hosts generalizing index with
  | nil =>
    cases h
    exact fun e he => Or.inl he
  | cons host hosts ih =>
    simp only [addHosts] at h
    split at h
    · cases h
    rename_i next hnext
    intro e he
    rcases ih h e he with he | ⟨n, hn, heq⟩
    · unfold NameIndex.add at hnext
      dsimp only at hnext
      split at hnext
      · obtain ⟨-, hnext⟩ := Option.ite_none_left_eq_some.1 hnext
        rw [← Option.some.inj hnext] at he
        exact Or.inl he
      · obtain ⟨-, hnext⟩ := Option.ite_none_left_eq_some.1 hnext
        rw [← Option.some.inj hnext] at he
        rcases List.mem_append.1 he with he | he
        · exact Or.inl he
        · exact Or.inr ⟨host, List.mem_cons_self, by rw [List.mem_singleton.1 he]⟩
    · exact Or.inr ⟨n, List.mem_cons_of_mem _ hn, heq⟩

theorem addDeclarations_exact {index index' : NameIndex ClientAuth} {scopes : List ScopedPolicy}
    (h : addDeclarations idna index scopes = .ok index') :
    ∀ e ∈ index'.exact, e ∈ index.exact ∨
      ∃ p ∈ scopes, ∃ host ∈ p.hosts, e.1 = canonicalTLSName idna host := by
  induction scopes generalizing index with
  | nil =>
    cases h
    exact fun e he => Or.inl he
  | cons p scopes ih =>
    simp only [addDeclarations, bind, Except.bind] at h
    cases hhosts : addHosts idna p.policy index p.hosts with
    | error err => simp [hhosts] at h
    | ok next =>
      simp only [hhosts] at h
      intro e he
      rcases ih h e he with he | ⟨q, hq, hhost⟩
      · rcases addHosts_exact hhosts e he with he | hhost
        · exact Or.inl he
        · exact Or.inr ⟨p, List.mem_cons_self, hhost⟩
      · exact Or.inr ⟨q, List.mem_cons_of_mem _ hq, hhost⟩

variable {s : Bytes}

/-- **Outside every scope.** No scope of a resolved listener covers a name with a colon or a bracket
and no dot: no exact host holds such a byte, and a wildcard needs a dot. -/
theorem Listener.Resolved.declared_eq {l : Listener} (h : l.Resolved idna) {name : Bytes}
    (hascii : isASCII name = true) {c : UInt8} (hc : c = ch ':' ∨ c = ch '[') (hmem : c ∈ name)
    (hdot : ch '.' ∉ name) : l.declared idna name = l.clientAuth := by
  have hcanonical : c ∈ canonicalTLSName idna name := by
    refine mem_canonicalTLSName idna hascii ?_ ?_ hmem
    · rcases hc with rfl | rfl <;> decide
    · rcases hc with rfl | rfl <;> decide
  have hrefused : c ∈ refusedBytes := by rcases hc with rfl | rfl <;> decide
  have hundotted : ch '.' ∉ canonicalTLSName idna name := by
    intro hmem
    obtain ⟨b, hb, hlow⟩ := of_mem_canonicalTLSName hascii hmem
    have hbdot : b = ch '.' := by
      unfold lowerByte at hlow
      grind [ch]
    exact hdot (hbdot ▸ hb)
  unfold Listener.declared indexClientAuthPolicies
  cases hindex : addDeclarations idna {} l.clientAuthPolicies with
  | error err => rfl
  | ok index =>
    have hexact : index.exact.lookup (canonicalTLSName idna name) = none := by
      rw [List.lookup_eq_none_iff]
      intro e he
      rw [bne_iff_ne]
      intro heq
      rcases addDeclarations_exact hindex e he with he | ⟨p, hp, host, hhost, hname⟩
      · cases he
      · obtain ⟨hfix, hclean⟩ := h p hp host hhost
        rw [hname, hfix] at heq
        rw [containsAny, List.any_eq_false] at hclean
        exact hclean c (heq ▸ hcanonical) (by simpa using hrefused)
    simp only [NameIndex.lookup, NameIndex.lookupCanonical, hexact, splitAtByte_none hundotted,
      Option.none_or]

/-! ### One name for admission and router -/

theorem isASCII_of_toLower (h : isASCII (toLower s) = true) : isASCII s = true := by
  rw [isASCII_iff] at h ⊢
  intro c hc
  have hlow := h _ (List.mem_map_of_mem hc)
  unfold lowerByte at hlow
  grind

/-- The configured host and the compared one differ at most in case and in one trailing dot. -/
def SameHost (a b : Bytes) : Prop :=
  toLower a = toLower b ∨ toLower a = toLower b ++ lit "." ∨ toLower b = toLower a ++ lit "."

theorem dropLast_dot (h : s.getLast? = some (ch '.')) : s = s.dropLast ++ lit "." := by
  have hne : s ≠ [] := by
    rintro rfl
    cases h
  have hlast : s.getLast hne = ch '.' := by
    rw [List.getLast?_eq_getLast_of_ne_nil hne] at h
    exact Option.some.inj h
  conv_lhs => rw [← List.dropLast_append_getLast hne, hlast]
  rfl

variable {host : Bytes}

theorem sameHost_of_matchHost {m : Docker.Matcher} (hkind : m.hostKind ≠ .any)
    (h : m.matchHost host = true) : SameHost m.host host := by
  unfold Docker.Matcher.matchHost at h
  cases hk : m.hostKind with
  | any => exact absurd hk hkind
  | exact =>
    simp only [hk, Bool.and_eq_true, equalFold_iff] at h
    exact Or.inl h.2
  | traefik =>
    simp only [hk, Docker.matchTraefikHost, Bool.or_eq_true, Bool.and_eq_true, beq_iff_eq] at h
    rcases h with (h | ⟨hdot, h⟩) | ⟨hdot, h⟩
    · exact Or.inl h.symm
    · refine Or.inr (Or.inl ?_)
      rw [h]
      exact dropLast_dot hdot
    · refine Or.inr (Or.inr ?_)
      rw [← h]
      exact dropLast_dot hdot

theorem isASCII_of_sameHost {a b : Bytes} (hb : isASCII b = true) (h : SameHost a b) :
    isASCII a = true := by
  have hlower : isASCII (toLower b) = true := isASCII_toLower hb
  apply isASCII_of_toLower
  rw [isASCII_iff] at hlower ⊢
  intro c hc
  rcases h with h | h | h
  · exact hlower c (h ▸ hc)
  · rw [h] at hc
    rcases List.mem_append.1 hc with hc | hc
    · exact hlower c hc
    · rw [List.mem_singleton.1 hc]
      decide
  · refine hlower c ?_
    rw [h]
    exact List.mem_append_left _ hc

/-- Hosts that the router takes for the same have the same canonical name. -/
theorem canonicalTLSName_congr (idna : Idna) {a b : Bytes} (hb : isASCII b = true)
    (h : SameHost a b) : canonicalTLSName idna a = canonicalTLSName idna b := by
  have ha := isASCII_of_sameHost hb h
  rw [canonicalTLSName_ascii idna ha, canonicalTLSName_ascii idna hb, ← trimTLSName_toLower ha,
    ← trimTLSName_toLower hb]
  rcases h with h | h | h
  · rw [h]
  · rw [h, trimTLSName_dot (isASCII_toLower hb)]
  · rw [h, trimTLSName_dot (isASCII_toLower ha)]

theorem authorityName_some {name : Bytes} (h : authorityName idna name = some host) :
    host = canonicalTLSName idna name := by
  unfold authorityName at h
  obtain ⟨-, h⟩ := Option.ite_none_left_eq_some.1 h
  dsimp only at h
  obtain ⟨-, h⟩ := Option.ite_none_left_eq_some.1 h
  exact (Option.some.inj h).symm

/-- A name without brackets is read alike: the admission canonicalises what the router compares. -/
theorem clientAuthAuthority_unbracketed {idna : Idna} {name host : Bytes}
    (hbracket : name.head? ≠ some (ch '[')) (h : clientAuthAuthority idna name = some host) :
    host = canonicalTLSName idna (stripPort name) := by
  have hopen : hasPrefix name (lit "[") = false := by
    rw [Bool.eq_false_iff, ne_eq, hasPrefix_iff]
    rintro ⟨t, rfl⟩
    exact hbracket rfl
  unfold clientAuthAuthority at h
  rw [hopen, Bool.false_and, if_neg (by simp)] at h
  split at h
  · cases hsplit : splitHostPort name with
    | none => simp [hsplit] at h
    | some r =>
      obtain ⟨before, port⟩ := r
      simp only [hsplit] at h
      unfold splitHostPort at hsplit
      cases hcut : cutLast name (ch ':') with
      | none => simp [hcut] at hsplit
      | some r =>
        obtain ⟨before', port'⟩ := r
        simp only [hcut, if_neg hbracket] at hsplit
        obtain ⟨hno, hpair⟩ := Option.ite_none_left_eq_some.1 hsplit
        obtain ⟨rfl, rfl⟩ := Prod.ext_iff.1 (Option.some.inj hpair)
        rw [not_or, not_or] at hno
        have hstrip : stripPort name = before' := by
          have hclose : containsByte before' (ch ']') = false := by
            rw [containsByte, List.contains_eq_mem, decide_eq_false_iff_not]
            exact fun hmem => hno.2.2 (mem_of_cutLast hcut _ hmem)
          simp [stripPort, hcut, hclose]
        rw [hstrip]
        obtain ⟨_, h⟩ := Option.ite_none_left_eq_some.1 h
        split at h
        · rename_i hcolon
          exact absurd (by simpa [containsByte] using hcolon) hno.1
        · exact authorityName_some h
  · rename_i hcolon
    have hno : ch ':' ∉ name := by simpa [containsByte] using hcolon
    have hstrip : stripPort name = name := by
      have hcut : cutLast name (ch ':') = none := by
        simp [cutLast, splitAtByte_none (fun h => hno (List.mem_reverse.1 h))]
      simp [stripPort, hcut]
    rw [hstrip]
    exact authorityName_some h

/-- A bracketed text that holds a colon and no dot. -/
def UndottedLiteral (host : Bytes) : Prop :=
  ch ':' ∈ host.takeWhile (· ≠ ch ']') ∧ ch '.' ∉ host

instance (host : Bytes) : Decidable (UndottedLiteral host) := inferInstanceAs (Decidable (_ ∧ _))

/-- The admission reads a bracketed text as what stands between the brackets. -/
theorem clientAuthAuthority_bracketed {idna : Idna} {name host : Bytes}
    (hbracket : name.head? = some (ch '[')) (hcolon : ch ':' ∈ name.takeWhile (· ≠ ch ']'))
    (h : clientAuthAuthority idna name = some host) : ch ':' ∈ host ∧ host ⊆ name := by
  obtain ⟨t, rfl⟩ : ∃ t, name = ch '[' :: t := List.head?_eq_some_iff.1 hbracket
  have hmem : ch ':' ∈ ch '[' :: t := (List.takeWhile_sublist _).subset hcolon
  unfold clientAuthAuthority at h
  split at h
  · rename_i hboth
    obtain ⟨u, hu⟩ := (hasSuffix_iff _ _).1 (Bool.and_eq_true _ _ ▸ hboth : _ ∧ _).2
    obtain ⟨ip, rfl⟩ : ∃ ip, t = ip ++ lit "]" := by
      cases u with
      | nil =>
        have hclose : ch ']' = ch '[' := Option.some.inj (congrArg List.head? hu)
        exact absurd hclose (by decide)
      | cons b ip => exact ⟨ip, (List.cons.inj hu).2.symm⟩
    have hopen : cutPrefix (ch '[' :: (ip ++ lit "]")) (lit "[") = (ip ++ lit "]", true) := by
      simp [cutPrefix, hasPrefix, lit]
    rw [hopen, cutSuffix_append] at h
    obtain ⟨-, h⟩ := Option.ite_none_right_eq_some.1 h
    obtain rfl := Option.some.inj h
    refine ⟨?_, fun b hb => List.mem_cons_of_mem _ (List.mem_append_left _ hb)⟩
    rcases List.mem_cons.1 hmem with hmem | hmem
    · exact absurd hmem (by decide)
    rcases List.mem_append.1 hmem with hmem | hmem
    · exact hmem
    · exact absurd hmem (by decide)
  · rw [if_pos (by simpa [containsByte] using hmem)] at h
    split at h
    · cases h
    rename_i opened port hsplit
    obtain ⟨-, h⟩ := Option.ite_none_left_eq_some.1 h
    -- the text before the first closing bracket is what `SplitHostPort` returns
    obtain ⟨rest, hrest, hclose⟩ : ∃ rest, ch '[' :: t = (ch '[' :: opened) ++ ch ']' :: rest ∧
        ch ']' ∉ ch '[' :: opened := by
      unfold splitHostPort at hsplit
      split at hsplit
      · cases hsplit
      rw [if_pos hbracket] at hsplit
      split at hsplit
      · cases hsplit
      rename_i whole rest hcut
      obtain ⟨-, hsplit⟩ := Option.ite_none_left_eq_some.1 hsplit
      obtain ⟨-, hsplit⟩ := Option.ite_none_left_eq_some.1 hsplit
      obtain ⟨hwhole, hclose⟩ := splitAtByte_some hcut
      cases whole with
      | nil => exact absurd (List.cons.inj hwhole).1 (by decide)
      | cons b whole =>
        obtain ⟨rfl, -⟩ := List.cons.inj hwhole
        obtain ⟨rfl, -⟩ := Prod.ext_iff.1 (Option.some.inj hsplit)
        exact ⟨rest, hwhole, hclose⟩
    have hopened : ch ':' ∈ opened := by
      rw [hrest, List.takeWhile_append_of_pos
        (fun b hb => by simpa using fun heq : b = ch ']' => hclose (heq ▸ hb))] at hcolon
      simpa [ch] using hcolon
    rw [if_pos (by simpa [containsByte] using hopened)] at h
    obtain ⟨-, h⟩ := Option.ite_none_right_eq_some.1 h
    obtain rfl := Option.some.inj h
    refine ⟨hopened, fun b hb => ?_⟩
    rw [hrest]
    exact List.mem_append_left _ (List.mem_cons_of_mem _ hb)

theorem stripPort_bracketed {name : Bytes} (hbracket : name.head? = some (ch '[')) :
    ch '[' ∈ stripPort name := by
  obtain ⟨t, rfl⟩ : ∃ t, name = ch '[' :: t := List.head?_eq_some_iff.1 hbracket
  unfold stripPort
  split
  · rename_i before port hcut
    split
    · exact List.mem_cons_self
    · cases before with
      | nil => exact absurd (List.cons.inj (cutLast_some hcut)).1 (by decide)
      | cons b before =>
        rw [← (List.cons.inj (cutLast_some hcut)).1]
        exact List.mem_cons_self
  · exact List.mem_cons_self

theorem stripPort_subset (host : Bytes) : stripPort host ⊆ host := by
  unfold stripPort
  split
  · rename_i before port hcut
    split
    · exact List.Subset.refl _
    · exact mem_of_cutLast hcut
  · exact List.Subset.refl _

theorem Listener.declared_congr {a b : Bytes} (l : Listener)
    (h : canonicalTLSName idna a = canonicalTLSName idna b) :
    l.declared idna a = l.declared idna b := by
  simp only [Listener.declared, NameIndex.lookup, h]

/-- The admission selects for a request what the declarations select for the route's host. -/
theorem declared_authority {l : Listener} (hresolved : l.Resolved idna) {name : Bytes}
    (hascii : isASCII name = true)
    (hbracket : name.head? = some (ch '[') → UndottedLiteral name)
    (hauthority : clientAuthAuthority idna name = some host) {h : Bytes}
    (hsame : SameHost h (stripPort name)) : l.declared idna h = l.declared idna host := by
  have hstrip : isASCII (stripPort name) = true := isASCII_of_subset hascii (stripPort_subset name)
  rw [l.declared_congr (canonicalTLSName_congr idna hstrip hsame)]
  by_cases hopen : name.head? = some (ch '[')
  · -- both names lie outside every scope
    obtain ⟨hcolon, hdot⟩ := hbracket hopen
    obtain ⟨hcolon, hsub⟩ := clientAuthAuthority_bracketed hopen hcolon hauthority
    rw [hresolved.declared_eq hstrip (Or.inr rfl) (stripPort_bracketed hopen)
        (fun hmem => hdot (stripPort_subset name hmem)),
      hresolved.declared_eq (isASCII_of_subset hascii hsub) (Or.inl rfl) hcolon
        (fun hmem => hdot (hsub hmem))]
  · obtain rfl := clientAuthAuthority_unbracketed hopen hauthority
    exact l.declared_congr (canonicalTLSName_idem idna hstrip).symm

/-- An IDNA profile that maps every name to lower case. -/
def lowerIdna : Idna where
  toASCII n := some (toLower n)
  ascii _ _ := Or.inr (Or.inl rfl)

/-- One scope that asks for a certificate, and a default that does not. -/
def oneScope (host : Bytes) : Listener where
  clientAuthPolicies := [{ hosts := [host], policy := { mode := .requireAny } }]

/-- The table of `oneScope`. -/
def oneScopeTable (host : Bytes) : ClientAuthTable where
  names := { exact := [(host, { id := 1, mode := .requireAny })] }
  defaultAuth := { mode := .none }
  isScoped := true

theorem buildClientAuthTable_oneScope (files : CAFiles)
    (hcanonical : canonicalTLSName lowerIdna host = host)
    (hexact : hasPrefix host (lit "*.") = false) :
    buildClientAuthTable lowerIdna files (oneScope host) = .ok (oneScopeTable host) := by
  simp [buildClientAuthTable, oneScope, oneScopeTable, addPolicies, addHosts, NameIndex.add,
    compileClientAuth, internClientAuth, ClientAuthMode.verifies, bind, Except.bind, pure,
    Except.pure, hcanonical, hexact]

/-- The declared host `A.com` is resolved to the scope `a.com`. -/
theorem oneScope_resolved : (oneScope (lit "a.com")).Resolved lowerIdna := by
  have hresolve : resolveClientAuth lowerIdna (oneScope (lit "A.com")) = .ok (oneScope (lit "a.com")) :=
    rfl
  have hascii : ∀ p ∈ (oneScope (lit "A.com")).clientAuthPolicies, ∀ host ∈ p.hosts,
      isASCII host = true := by
    intro p hp host hhost
    rw [List.mem_singleton.1 hp] at hhost
    rw [List.mem_singleton.1 hhost]
    decide
  exact resolved_of_resolveClientAuth hascii hresolve

/-- With one scope, for `name`, a route for `configured` is reached under the policy of `name`, while the
configured host has another policy. -/
def PolicyDiffers (name configured : Bytes) : Prop :=
  let l := oneScope name
  let r : AuthRequest := { host := configured, serverName := some name }
  let c : CompiledRoute := { matcher := Docker.compileNative configured [] }
  l.Resolved lowerIdna ∧
    buildClientAuthTable lowerIdna (fun _ => none) l = .ok (oneScopeTable name) ∧
    clientAuthAdmission lowerIdna (oneScopeTable name) r = true ∧
    c.serves { host := stripPort r.host, path := lit "/" } = true ∧
    ¬ SamePolicy (fun _ => none) (l.declared lowerIdna c.matcher.host) (l.declared lowerIdna name)

end Statute.Tls
