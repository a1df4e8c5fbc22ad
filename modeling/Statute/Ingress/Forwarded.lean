import Statute.Client.Selection

/-!
# Forwarded headers at the ingress

`ingressHandler` of `ingress.go` up to the call of the next handler: the treatment of aliased field
names, the forwarded identity headers and the `Connection` header, and the statuses that end a
request before.  Of the path rules the model keeps what decides between a status and the next
handler; the cleaned URL itself is left out, since no header reads it.

* An untrusted peer has no say in the forwarded family: its requests are handled alike whatever
  they put there (`untrusted_forwarded_identity`).
* No `Connection` token removes a header of the family (`ingressConnectionHeaders_lookup`).
-/

namespace Statute.Ingress

open Statute.Base Statute.Docker Statute.Client

/-! ### The policy -/

inductive HeaderAliasPolicy where
  | keep
  | delete
  | reject
  | underscoresDelete
  | underscoresReject
deriving DecidableEq, Repr

structure IngressPolicy where
  forwardedHeaders : Bool
  normalizePath : Bool
  sanitizePath : Bool
  headerAliases : HeaderAliasPolicy

/-- What the ingress reads of a request. -/
structure Request extends Client.Request where
  method : Bytes
  urlOpaque : Bytes := []
  rawPath : Bytes := []

def headerXForwardedHost : Bytes := lit "X-Forwarded-Host"

def headerXForwardedProto : Bytes := lit "X-Forwarded-Proto"

def headerXForwardedPort : Bytes := lit "X-Forwarded-Port"

def headerXRealIP : Bytes := lit "X-Real-Ip"

def ingressForwardedHeaders : List Bytes :=
  [headerXForwardedProto, headerXForwardedFor, headerXForwardedHost, headerXForwardedPort,
    lit "X-Forwarded-Server", lit "X-Forwarded-Uri", lit "X-Forwarded-Method",
    lit "X-Forwarded-Prefix", headerXRealIP, lit "X-Forwarded-Tls-Client-Cert",
    lit "X-Forwarded-Tls-Client-Cert-Info"]

/-- `strings.ReplaceAll(name, "_", "-")`. -/
def hyphenated (name : Bytes) : Bytes := name.map (fun c => if c = ch '_' then ch '-' else c)

/-- The name, with `_` read as `-`, canonicalises to one of the forwarded headers. -/
def forwardedFamily (name : Bytes) : Bool :=
  ingressForwardedHeaders.contains (canonicalHeaderKey (hyphenated name))

/-! ### Header aliases -/

/-- `aliasHeaderName`: the name has a byte that is neither a letter, a digit nor a hyphen. -/
def aliasHeaderName (name : Bytes) : Bool :=
  name.any (fun c => !(c == ch '-' || (65 ≤ c && c ≤ 90) || (97 ≤ c && c ≤ 122) ||
    (48 ≤ c && c ≤ 57)))

/-- The alias test of `ingressAliases` under the policy. -/
def isAlias (policy : HeaderAliasPolicy) (name : Bytes) : Bool :=
  match policy with
  | .underscoresDelete | .underscoresReject => containsByte name (ch '_')
  | _ => aliasHeaderName name

/-- `ingressAliases`: `none` when the request is refused. -/
def ingressAliases (headers : Header) (policy : HeaderAliasPolicy) : Option Header :=
  match policy with
  | .keep => some headers
  | .reject | .underscoresReject =>
    if headers.entries.any (fun e => isAlias policy e.1) then none else some headers
  | .delete | .underscoresDelete => some (headers.deleteWhere (isAlias policy))

/-! ### Forwarded headers -/

/-- `sanitizeIngressForwarded`'s test: the peer may speak for its client. -/
def peerTrusted (t : Trust) (r : Client.Request) : Bool :=
  match t.policy, parseAddrPort r.remoteAddr with
  | some policy, some (peer, _) => addrInPrefixes peer policy.prefixes
  | _, _ => false

def sanitizeIngressForwarded (t : Trust) (r : Client.Request) : Header :=
  if peerTrusted t r then r.header else r.header.deleteWhere forwardedFamily

def headerHasToken (values : List Bytes) (token : Bytes) : Bool :=
  values.any (fun value => (split (ch ',') value).any (fun part => equalFold (trimSpace part) token))

def ingressScheme (tls : Bool) (h : Header) : Bytes :=
  if equalFold (h.get (lit "Upgrade")) (lit "websocket") &&
      headerHasToken (h.values (lit "Connection")) (lit "upgrade") then
    if tls then lit "wss" else lit "ws"
  else if tls then lit "https" else lit "http"

def ingressPort (host : Bytes) (tls : Bool) (h : Header) : Bytes :=
  let byProto :=
    let proto := h.get headerXForwardedProto
    if tls || proto == lit "https" || proto == lit "wss" then lit "443" else lit "80"
  match splitHostPort host with
  | some (_, port) => if port ≠ [] then port else byProto
  | none => byProto

variable (h : Header) {h₁ h₂ : Header}

def setMissingIngressHeader (name value : Bytes) : Header :=
  if h.get name = [] then h.set name value else h

/-- The state of the token loop of `ingressConnectionHeaders`: the header map and `upgrade`. -/
abbrev TokenState := Header × Bytes

/-- The body of the token loop of `ingressConnectionHeaders`. -/
def connectionToken (s : TokenState) (token : Bytes) : TokenState :=
  let name := canonicalHeaderKey (trimSpace token)
  let upgrade := if equalFold name (lit "Upgrade") then s.1.get (lit "Upgrade") else s.2
  (if forwardedFamily name then s.1 else s.1.del name, upgrade)

def ingressConnectionHeaders : Header :=
  let tokens := (h.values (lit "Connection")).flatMap (split (ch ','))
  let s := tokens.foldl connectionToken (h, [])
  let h := s.1.del (lit "Connection")
  if s.2 = [] then h else (h.set (lit "Connection") (lit "Upgrade")).set (lit "Upgrade") s.2

/-- The `X-Real-Ip` step of `ingressForwarded`. -/
def setRealIP (remoteAddr : Bytes) (h : Header) : Header :=
  match parseAddrPort remoteAddr with
  | some (peer, _) =>
    if h.get headerXRealIP = [] then h.set headerXRealIP peer.unmap.withoutZone.text else h
  | none => h

/-- `strings.Join(values, ", ")`. -/
def joinValues (values : List Bytes) : Bytes := (lit ", ").intercalate values

/-- The chain step of `ingressForwarded`: several lines become one. -/
def joinForwardedFor : Header :=
  if h.values headerXForwardedFor = [] then h
  else h.set headerXForwardedFor (joinValues (h.values headerXForwardedFor))

/-- The server step of `ingressForwarded`. -/
def setServer (hostname : Bytes) (h : Header) : Header :=
  if hostname = [] then h else h.set (lit "X-Forwarded-Server") hostname

/-- The steps of `ingressForwarded` between sanitising and the `Connection` header. -/
def establish (hostname : Bytes) (r : Client.Request) (h : Header) : Header :=
  let h := setRealIP r.remoteAddr h
  let h := setMissingIngressHeader h headerXForwardedProto (ingressScheme r.tls h)
  let h := setMissingIngressHeader h headerXForwardedHost r.host
  let h := setMissingIngressHeader h headerXForwardedPort (ingressPort r.host r.tls h)
  setServer hostname (joinForwardedFor h)

def ingressForwarded (t : Trust) (hostname : Bytes) (r : Client.Request) : Header :=
  ingressConnectionHeaders (establish hostname r (sanitizeIngressForwarded t r))

/-- `ingressForwardedValues`. -/
structure ForwardedValues where
  host : Bytes
  proto : Bytes
  chain : Bytes
deriving DecidableEq

/-- The values `ingressHandler` puts in the context. -/
def forwardedValues : ForwardedValues where
  host := h.get headerXForwardedHost
  proto := h.get headerXForwardedProto
  chain := joinValues (h.values headerXForwardedFor)

/-! ### The handler -/

/-- The number two hexadecimal digits write. -/
def hexPair (a b : UInt8) : Option ℕ := digitsValue hexDigit 16 0 [a, b]

def ingressUnreserved (c : UInt8) : Bool :=
  !aliasHeaderName [c] || c == ch '.' || c == ch '_' || c == ch '~'

/-- `normalizeIngressEscapes`: `none` for an invalid escape. -/
def normalizeIngressEscapes : Bytes → Option Bytes
  | [] => some []
  | c :: rest =>
    if c ≠ ch '%' then (normalizeIngressEscapes rest).map (c :: ·)
    else match rest with
      | a :: b :: rest' =>
        match hexPair a b with
        | none => none
        | some v =>
          (normalizeIngressEscapes rest').map (fun out =>
            if ingressUnreserved (UInt8.ofNat v) then UInt8.ofNat v :: out
            else ch '%' :: upperByte a :: upperByte b :: out)
      | _ => none

def ingressRequestStatus (policy : IngressPolicy) (r : Request) : ℕ ⊕ Header :=
  if policy.normalizePath && r.urlOpaque != [] then .inl 400
  else match ingressAliases r.header policy.headerAliases with
    | none => .inl 400
    | some header =>
      if !policy.normalizePath then .inr header
      else if r.method == lit "CONNECT" then .inl 501
      else if containsByte r.rawPath (ch '#') then .inl 400
      else .inr header

/-- What `ingressHandler` does with a request: answer with a status, or call the next handler with
these headers and context values. -/
inductive Outcome where
  | status (code : ℕ)
  | next (header : Header) (forwarded : Option ForwardedValues)

/-- The path step of `ingressHandler`: whether `ingressPath` succeeds. -/
def ingressPathValid (policy : IngressPolicy) (r : Request) : Bool :=
  !policy.normalizePath || r.rawPath == [] || (normalizeIngressEscapes r.rawPath).isSome

def ingressHandler (policy : IngressPolicy) (t : Trust) (hostname : Bytes) (r : Request) : Outcome :=
  match ingressRequestStatus policy r with
  | .inl code => .status code
  | .inr header =>
    let r := { r with header := header }
    let header := if policy.forwardedHeaders then ingressForwarded t hostname r.toRequest else header
    let values := if policy.forwardedHeaders then some (forwardedValues header) else none
    if ingressPathValid policy r then .next header values else .status 400

/-! ### The Connection header -/

variable {key : Bytes}

theorem lookup_del_of_family {h : Header} {name : Bytes} (hkey : forwardedFamily key = true)
    (hname : forwardedFamily (canonicalHeaderKey name) = false) :
    (h.del (canonicalHeaderKey name)).lookup key = h.lookup key := by
  have hne : (key == canonicalHeaderKey name) = false := by
    rw [beq_eq_false_iff_ne]
    rintro rfl
    rw [hkey] at hname
    cases hname
  simp [Header.del, hne]

theorem connectionToken_lookup {s : TokenState} {token : Bytes}
    (hkey : forwardedFamily key = true) :
    (connectionToken s token).1.lookup key = s.1.lookup key := by
  simp only [connectionToken]
  split
  · rfl
  · rename_i hname
    exact lookup_del_of_family hkey (Bool.not_eq_true _ ▸ hname)

theorem foldl_connectionToken_lookup (hkey : forwardedFamily key = true) (tokens : List Bytes)
    (s : TokenState) : (tokens.foldl connectionToken s).1.lookup key = s.1.lookup key := by
  induction tokens generalizing s with
  | nil => rfl
  | cons token rest ih => rw [List.foldl_cons, ih, connectionToken_lookup hkey]

/-- A family name is neither `Connection` nor `Upgrade`. -/
theorem family_ne {name : Bytes} (hkey : forwardedFamily key = true)
    (hname : forwardedFamily name = false) : key ≠ name := by
  rintro rfl
  rw [hkey] at hname
  cases hname

/-- **Connection tokens.** Whatever the `Connection` header names, a header of the forwarded family
keeps its values. -/
theorem ingressConnectionHeaders_lookup (hkey : forwardedFamily key = true) :
    (ingressConnectionHeaders h).lookup key = h.lookup key := by
  have hconnection : key ≠ canonicalHeaderKey (lit "Connection") := family_ne hkey (by decide)
  have hupgrade : key ≠ canonicalHeaderKey (lit "Upgrade") := family_ne hkey (by decide)
  simp only [ingressConnectionHeaders]
  split
  · simp [Header.del, hconnection, foldl_connectionToken_lookup hkey]
  · simp [Header.del, Header.set, hconnection, hupgrade, foldl_connectionToken_lookup hkey]

/-! ### Two requests of one peer -/

/-- Two header maps agree on the names that satisfy `names`. -/
def Agree (names : Bytes → Bool) (h₁ h₂ : Header) : Prop :=
  ∀ key, names key = true → h₁.lookup key = h₂.lookup key

section Agree

variable {names : Bytes → Bool} {h₁ h₂ : Header}

theorem Agree.values (h : Agree names h₁ h₂) {name : Bytes}
    (hname : names (canonicalHeaderKey name) = true) : h₁.values name = h₂.values name := by
  rw [Header.values, Header.values, h _ hname]

theorem Agree.get (h : Agree names h₁ h₂) {name : Bytes}
    (hname : names (canonicalHeaderKey name) = true) : h₁.get name = h₂.get name := by
  rw [Header.get, Header.get, h.values hname]

theorem Agree.set (h : Agree names h₁ h₂) (name value : Bytes) :
    Agree names (h₁.set name value) (h₂.set name value) := by
  intro key hkey
  simp [Header.set, h key hkey]

theorem Agree.setMissing (h : Agree names h₁ h₂) (name value : Bytes)
    (hname : names (canonicalHeaderKey name) = true) :
    Agree names (setMissingIngressHeader h₁ name value) (setMissingIngressHeader h₂ name value) := by
  simp only [setMissingIngressHeader, h.get hname]
  split
  · exact h.set name value
  · exact h

theorem Agree.setRealIP (h : Agree names h₁ h₂)
    (hname : names (canonicalHeaderKey headerXRealIP) = true) (remoteAddr : Bytes) :
    Agree names (setRealIP remoteAddr h₁) (setRealIP remoteAddr h₂) := by
  unfold Ingress.setRealIP
  split
  · rw [h.get hname]
    split
    · exact h.set _ _
    · exact h
  · exact h

theorem Agree.joinForwardedFor (h : Agree names h₁ h₂)
    (hname : names (canonicalHeaderKey headerXForwardedFor) = true) :
    Agree names (joinForwardedFor h₁) (joinForwardedFor h₂) := by
  unfold Ingress.joinForwardedFor
  rw [h.values hname]
  split
  · exact h
  · exact h.set _ _

theorem Agree.setServer (h : Agree names h₁ h₂) (hostname : Bytes) :
    Agree names (setServer hostname h₁) (setServer hostname h₂) := by
  unfold Ingress.setServer
  split
  · exact h
  · exact h.set _ _

end Agree

/-- The names the forwarded steps read: the family, `Upgrade` and `Connection`. -/
def readNames (key : Bytes) : Bool :=
  forwardedFamily key || key == lit "Upgrade" || key == lit "Connection"

theorem readNames_of_family (h : forwardedFamily key = true) : readNames key = true := by
  simp [readNames, h]

theorem ingressScheme_congr (h : Agree readNames h₁ h₂) (tls : Bool) :
    ingressScheme tls h₁ = ingressScheme tls h₂ := by
  have hupgrade : h₁.get (lit "Upgrade") = h₂.get (lit "Upgrade") := h.get (by decide)
  have hconnection : h₁.values (lit "Connection") = h₂.values (lit "Connection") :=
    h.values (by decide)
  simp only [ingressScheme, hupgrade, hconnection]

theorem ingressPort_congr (h : Agree readNames h₁ h₂) (host : Bytes) (tls : Bool) :
    ingressPort host tls h₁ = ingressPort host tls h₂ := by
  have hproto : h₁.get headerXForwardedProto = h₂.get headerXForwardedProto := h.get (by decide)
  simp only [ingressPort, hproto]

variable {r₁ r₂ : Client.Request}

/-- The steps after sanitising keep agreement on what they read. -/
theorem establish_agree (h : Agree readNames h₁ h₂)
    (hremote : r₁.remoteAddr = r₂.remoteAddr) (hhost : r₁.host = r₂.host) (htls : r₁.tls = r₂.tls)
    (hostname : Bytes) : Agree readNames (establish hostname r₁ h₁) (establish hostname r₂ h₂) := by
  simp only [establish, hremote, hhost, htls]
  have hreal := h.setRealIP (by decide) r₂.remoteAddr
  rw [ingressScheme_congr hreal]
  have hproto := hreal.setMissing headerXForwardedProto
    (ingressScheme r₂.tls (setRealIP r₂.remoteAddr h₂)) (by decide)
  have hfhost := hproto.setMissing headerXForwardedHost r₂.host (by decide)
  rw [ingressPort_congr hfhost]
  apply Agree.setServer
  apply Agree.joinForwardedFor _ (by decide)
  exact hfhost.setMissing headerXForwardedPort _ (by decide)

/-- The peer's sanitised headers agree on what the steps read, whatever it sent in the family. -/
theorem sanitize_agree {t : Trust} (h₁ : peerTrusted t r₁ = false) (h₂ : peerTrusted t r₂ = false)
    (hupgrade : r₁.header.lookup (lit "Upgrade") = r₂.header.lookup (lit "Upgrade"))
    (hconnection : r₁.header.lookup (lit "Connection") = r₂.header.lookup (lit "Connection")) :
    Agree readNames (sanitizeIngressForwarded t r₁) (sanitizeIngressForwarded t r₂) := by
  intro key hkey
  simp only [sanitizeIngressForwarded, h₁, h₂, Bool.false_eq_true, if_false,
    Header.lookup_deleteWhere]
  split
  · rfl
  · rename_i hfamily
    simp only [readNames, hfamily, Bool.false_or, Bool.or_eq_true, beq_iff_eq] at hkey
    rcases hkey with rfl | rfl
    · exact hupgrade
    · exact hconnection

theorem ingressForwarded_agree {t : Trust} (hpeer : peerTrusted t r₁ = false)
    (hremote : r₁.remoteAddr = r₂.remoteAddr) (hhost : r₁.host = r₂.host) (htls : r₁.tls = r₂.tls)
    (hupgrade : r₁.header.lookup (lit "Upgrade") = r₂.header.lookup (lit "Upgrade"))
    (hconnection : r₁.header.lookup (lit "Connection") = r₂.header.lookup (lit "Connection"))
    (hostname : Bytes) :
    Agree forwardedFamily (ingressForwarded t hostname r₁) (ingressForwarded t hostname r₂) := by
  have hpeer₂ : peerTrusted t r₂ = false := by
    rw [← hpeer]
    simp only [peerTrusted, hremote]
  have hsteps := establish_agree (sanitize_agree hpeer hpeer₂ hupgrade hconnection) hremote hhost htls
    hostname
  intro key hkey
  rw [ingressForwarded, ingressForwarded, ingressConnectionHeaders_lookup _ hkey,
    ingressConnectionHeaders_lookup _ hkey]
  exact hsteps key (readNames_of_family hkey)

theorem forwardedValues_congr (h : Agree forwardedFamily h₁ h₂) :
    forwardedValues h₁ = forwardedValues h₂ := by
  have hfhost : h₁.get headerXForwardedHost = h₂.get headerXForwardedHost := h.get (by decide)
  have hproto : h₁.get headerXForwardedProto = h₂.get headerXForwardedProto := h.get (by decide)
  have hchain : h₁.values headerXForwardedFor = h₂.values headerXForwardedFor :=
    h.values (by decide)
  simp only [forwardedValues, hfhost, hproto, hchain]

/-- The alias policy keeps the names it does not take for aliases. -/
theorem ingressAliases_lookup {headers header : Header} {policy : HeaderAliasPolicy}
    (h : ingressAliases headers policy = some header) (hkey : isAlias policy key = false) :
    header.lookup key = headers.lookup key := by
  cases policy with
  | keep => rw [← Option.some.inj h]
  | reject => rw [← Option.some.inj (Option.ite_none_left_eq_some.1 h).2]
  | underscoresReject => rw [← Option.some.inj (Option.ite_none_left_eq_some.1 h).2]
  | delete =>
    rw [← Option.some.inj h]
    simp [hkey]
  | underscoresDelete =>
    rw [← Option.some.inj h]
    simp [hkey]

theorem ingressAliases_of_status {policy : IngressPolicy} {r : Request} {kept : Header}
    (h : ingressRequestStatus policy r = .inr kept) :
    ingressAliases r.header policy.headerAliases = some kept := by
  simp only [ingressRequestStatus] at h
  split at h
  · cases h
  · cases haliases : ingressAliases r.header policy.headerAliases with
    | none => simp [haliases] at h
    | some header =>
      simp only [haliases] at h
      split at h
      · cases h
        rfl
      · split at h
        · cases h
        · split at h
          · cases h
          · cases h
            rfl

/-- What reaches the next handler: the alias policy's headers, with the forwarded steps done. -/
theorem ingressHandler_next {policy : IngressPolicy} {t : Trust} {hostname : Bytes} {r : Request}
    {header : Header} {values : Option ForwardedValues} (hforwarded : policy.forwardedHeaders = true)
    (h : ingressHandler policy t hostname r = .next header values) :
    ∃ kept, ingressAliases r.header policy.headerAliases = some kept ∧
      header = ingressForwarded t hostname { r.toRequest with header := kept } ∧
      values = some (forwardedValues header) := by
  simp only [ingressHandler, hforwarded, if_true] at h
  split at h
  · cases h
  · rename_i kept hkept
    split at h
    · cases h
      exact ⟨kept, ingressAliases_of_status hkept, rfl, rfl⟩
    · cases h

/-- **Forwarded identity.** Two requests of a peer outside the trusted prefixes that agree on
`RemoteAddr`, `Host`, TLS and the `Upgrade` and `Connection` headers reach the next handler with the
same forwarded family and the same forwarded values, whatever else they sent; and for every header
map, whoever sent it, the `Connection` pass keeps the family. -/
theorem untrusted_forwarded_identity (policy : IngressPolicy) (t : Trust) (hostname : Bytes)
    (r₁ r₂ : Request) (hforwarded : policy.forwardedHeaders = true)
    (hpeer : peerTrusted t r₁.toRequest = false) (hremote : r₁.remoteAddr = r₂.remoteAddr)
    (hhost : r₁.host = r₂.host) (htls : r₁.tls = r₂.tls)
    (hupgrade : r₁.header.lookup (lit "Upgrade") = r₂.header.lookup (lit "Upgrade"))
    (hconnection : r₁.header.lookup (lit "Connection") = r₂.header.lookup (lit "Connection")) :
    (∀ header₁ values₁ header₂ values₂,
      ingressHandler policy t hostname r₁ = .next header₁ values₁ →
      ingressHandler policy t hostname r₂ = .next header₂ values₂ →
        (∀ key, forwardedFamily key = true → header₁.lookup key = header₂.lookup key) ∧
          values₁ = values₂) ∧
      ∀ (h : Header) (key : Bytes), forwardedFamily key = true →
        (ingressConnectionHeaders h).lookup key = h.lookup key := by
  refine ⟨?_, fun h key hkey => ingressConnectionHeaders_lookup h hkey⟩
  intro header₁ values₁ header₂ values₂ h₁ h₂
  obtain ⟨kept₁, hkept₁, rfl, rfl⟩ := ingressHandler_next hforwarded h₁
  obtain ⟨kept₂, hkept₂, rfl, rfl⟩ := ingressHandler_next hforwarded h₂
  have hnotAlias : ∀ name ∈ [lit "Upgrade", lit "Connection"],
      isAlias policy.headerAliases name = false := by
    cases policy.headerAliases <;> decide
  have hagree : Agree forwardedFamily
      (ingressForwarded t hostname { r₁.toRequest with header := kept₁ })
      (ingressForwarded t hostname { r₂.toRequest with header := kept₂ }) := by
    apply ingressForwarded_agree
    · exact hpeer
    · exact hremote
    · exact hhost
    · exact htls
    · dsimp only
      rw [ingressAliases_lookup hkept₁ (hnotAlias _ (by simp)),
        ingressAliases_lookup hkept₂ (hnotAlias _ (by simp)), hupgrade]
    · dsimp only
      rw [ingressAliases_lookup hkept₁ (hnotAlias _ (by simp)),
        ingressAliases_lookup hkept₂ (hnotAlias _ (by simp)), hconnection]
  exact ⟨hagree, congrArg some (forwardedValues_congr hagree)⟩

/-- A request of the peer `198.51.100.4` with the given headers. -/
def direct (entries : List (Bytes × List Bytes)) (nodup : (entries.map Prod.fst).Nodup) : Request where
  remoteAddr := lit "198.51.100.4:4711"
  host := lit "a"
  header := ⟨entries, nodup⟩
  method := lit "GET"

/-- A request that names another client, and hides the forwarded names in `Connection`. -/
def spoofed : Request :=
  direct [(lit "X_forwarded_for", [lit "10.0.0.1"]), (lit "X-Real-Ip", [lit "10.0.0.1"]),
    (lit "Connection", [lit "x-forwarded-host, x-real-ip"])] (by decide)

theorem untrusted_forwarded_identity_spoofed :
    ∃ header₁ values₁ header₂ values₂,
      ingressHandler ⟨true, false, false, .keep⟩ {} [] spoofed = .next header₁ values₁ ∧
      ingressHandler ⟨true, false, false, .keep⟩ {} []
          (direct [(lit "Connection", [lit "x-forwarded-host, x-real-ip"])] (by decide)) =
        .next header₂ values₂ ∧ values₁ = values₂ := by
  refine ⟨_, _, _, _, rfl, rfl, ?_⟩
  exact ((untrusted_forwarded_identity ⟨true, false, false, .keep⟩ {} [] spoofed
    (direct [(lit "Connection", [lit "x-forwarded-host, x-real-ip"])] (by decide)) rfl rfl rfl rfl rfl
    (by decide) (by decide)).1 _ _ _ _ rfl rfl).2

end Statute.Ingress
