import Statute.Base.Header
import Statute.Base.HostPort
import Statute.Provider.Dispatch

/-!
# The client address of a request

`clientIP` of `accesslog.go` with the peer trust of `trustedproxy.go`, and the two membership tests
over its result: the deny list of `iplist.go` and the client constraint of a route.

* A text that names an address, with or without a port, is read as that address
  (`parseClientAddr_of_denotes`).
* The two tests are membership of the client's address exactly when its spelling is neutral for the
  list (`client_membership_iff`): `ipInList` compares the address as spelled, so a mapped spelling
  of a listed IPv4 client, or a zone, is missed by the deny list.
-/

namespace Statute.Client

open Statute.Base Statute.Docker Statute.Provider

/-! ### Requests and trust -/

/-- What the address code reads of an `http.Request`. -/
structure Request where
  remoteAddr : Bytes
  host : Bytes := []
  tls : Bool := false
  header : Header

structure TrustedProxyPolicy where
  prefixes : List Prefix
  header : Bytes

/-- The trust configuration a listener puts in the request's context. -/
structure Trust where
  policy : Option TrustedProxyPolicy := none
  behindCloudflare : Bool := false

def mustParsePrefixes (cidrs : List Bytes) : List Prefix := cidrs.filterMap parsePrefix

/-- The part of the last value of a multi-valued field after its last comma. -/
def lastMember (value : Bytes) : Bytes :=
  match cutLast value (ch ',') with
  | some (_, after) => after
  | none => value

def TrustedProxyPolicy.clientIP (p : TrustedProxyPolicy) (r : Request) : Bytes :=
  match parseAddrPort r.remoteAddr with
  | none => r.remoteAddr
  | some (peer, _) =>
    let peerIP := peer.unmap.text
    if addrInPrefixes peer p.prefixes = false then peerIP
    else
      match (r.header.values p.header).getLast? with
      | none => peerIP
      | some last =>
        let trimmed := trimSpace (lastMember last)
        if trimmed = [] then peerIP else trimmed

/-- The peer's own address, or `RemoteAddr` as it stands. -/
def peerText (r : Request) : Bytes :=
  match parseAddrPort r.remoteAddr with
  | some (peer, _) => peer.unmap.text
  | none => r.remoteAddr

def clientIP (t : Trust) (r : Request) : Bytes :=
  match t.policy with
  | some p => p.clientIP r
  | none =>
    if t.behindCloudflare then
      let cf := r.header.get (lit "CF-Connecting-IP")
      let tc := r.header.get (lit "True-Client-IP")
      if cf ≠ [] then cf else if tc ≠ [] then tc else peerText r
    else peerText r

/-! ### Reading the address -/

/-- The errors of `splitHostPortLast`. -/
inductive LookupError where
  | errEmpty
  | errBadBracket
deriving DecidableEq, Repr

/-- `errIPListLookup.Error`. -/
def LookupError.text : LookupError → Bytes
  | .errEmpty => lit "address is empty"
  | .errBadBracket => lit "unmatched bracket in address"

def splitHostPortLast (s : Bytes) : Except LookupError (Bytes × Bytes) :=
  match s with
  | [] => .error .errEmpty
  | c :: rest =>
    if c = ch '[' then
      match splitAtByte (ch ']') rest with
      | none => .error .errBadBracket
      | some (host, tail) =>
        .ok (host, if 1 < tail.length ∧ tail.head? = some (ch ':') then tail.tail else [])
    else
      match splitAtByte (ch ':') s with
      | none => .ok (s, [])
      | some (before, after) =>
        -- more than one colon is an IPv6 address without brackets
        if ch ':' ∈ after then .ok (s, []) else .ok (before, after)

/-- The port removal of `parseClientAddr`: a text that does not split is kept. -/
def stripClientPort (ip : Bytes) : Bytes :=
  match splitHostPortLast ip with
  | .ok (host, _) => host
  | .error _ => ip

def parseClientAddr (t : Trust) (r : Request) : Option Addr :=
  parseAddr (stripClientPort (clientIP t r))

def ipInList (t : Trust) (r : Request) (prefixes : List Prefix) : Bool :=
  match parseClientAddr t r with
  | none => false
  | some addr => prefixes.any (fun p => p.contains addr)

/-- What an IP-list middleware does with a request. -/
inductive Verdict where
  | forbidden
  | next
deriving DecidableEq, Repr

def denyIPsHandler (cidrs : List Bytes) (t : Trust) (r : Request) : Verdict :=
  if ipInList t r (mustParsePrefixes cidrs) then .forbidden else .next

/-- The request as the dispatcher sees it, its client address resolved by `parseClientAddr`. -/
def withClient (t : Trust) (r : Request) (req : Docker.Request) : Docker.Request :=
  { req with client := parseClientAddr t r }

/-! ### The address a text names -/

/-- The text names the address: alone, an IPv4 address with a port, or in brackets with or without
a port. -/
inductive Denotes : Bytes → Addr → Prop
  | bare {s : Bytes} {a : Addr} : parseAddr s = some a → Denotes s a
  | port {host port : Bytes} {a : Addr} : parseAddr host = some a → a.is4 = true → ch ':' ∉ port →
      Denotes (host ++ ch ':' :: port) a
  | bracketed {host tail : Bytes} {a : Addr} : parseAddr host = some a → ch ']' ∉ host →
      (tail = [] ∨ ∃ port, tail = ch ':' :: port) → Denotes (ch '[' :: host ++ ch ']' :: tail) a

theorem splitHostPortLast_two_colons {c : UInt8} {t : Bytes} (hc : c ≠ ch '[')
    (hcount : 2 ≤ (c :: t).count (ch ':')) : splitHostPortLast (c :: t) = .ok (c :: t, []) := by
  simp only [splitHostPortLast, if_neg hc]
  cases hsplit : splitAtByte (ch ':') (c :: t) with
  | none => rfl
  | some r =>
    obtain ⟨before, after⟩ := r
    obtain ⟨hs, hnot⟩ := splitAtByte_some hsplit
    have hafter : ch ':' ∈ after := by
      rw [hs, List.count_append, List.count_cons_self, List.count_eq_zero_of_not_mem hnot] at hcount
      exact List.count_pos_iff.1 (by omega)
    simp [hafter]

theorem splitHostPortLast_no_colon {c : UInt8} {t : Bytes} (hc : c ≠ ch '[')
    (hcolon : ch ':' ∉ c :: t) : splitHostPortLast (c :: t) = .ok (c :: t, []) := by
  simp only [splitHostPortLast, if_neg hc, splitAtByte_none hcolon]

variable {a : Addr}

/-- **Reading.** A text that names an address keeps it when its port is removed. -/
theorem parseAddr_stripClientPort {s : Bytes} (h : Denotes s a) :
    parseAddr (stripClientPort s) = some a := by
  cases h with
  | bare h =>
    obtain ⟨c, t, rfl, hc⟩ := head_of_parseAddr h
    cases h4 : a.is4 with
    | true => simpa [stripClientPort, splitHostPortLast_no_colon hc (not_mem_colon_of_is4 h h4)]
    | false =>
      simpa [stripClientPort, splitHostPortLast_two_colons hc (two_colons_of_parseAddr h h4)]
  | @port host port a h h4 hport =>
    obtain ⟨c, t, rfl, hc⟩ := head_of_parseAddr h
    have hsplit : splitAtByte (ch ':') (c :: (t ++ ch ':' :: port)) = some (c :: t, port) :=
      splitAtByte_append (not_mem_colon_of_is4 h h4) port
    simpa [stripClientPort, splitHostPortLast, hc, hsplit, hport] using h
  | @bracketed host tail a h hhost _ =>
    simpa [stripClientPort, splitHostPortLast, splitAtByte_append hhost tail] using h

theorem parseClientAddr_of_denotes {t : Trust} {r : Request} (h : Denotes (clientIP t r) a) :
    parseClientAddr t r = some a :=
  parseAddr_stripClientPort h

/-! ### Membership -/

/-- The client's address: the mapped form unmapped, the zone ignored. -/
def clientAddress (a : Addr) : Addr := a.unmap.withoutZone

/-- The address lies in some prefix of the list. -/
def Listed (cidrs : List Bytes) (a : Addr) : Prop :=
  ∃ c ∈ cidrs, ∃ p, parsePrefix c = some p ∧ p.contains a = true

/-- The spelling makes no difference to the list: a zone on a client that is not listed anyway, a
mapped form that is listed exactly when the IPv4 address is, or neither zone nor mapped form. -/
def SpellingNeutral (cidrs : List Bytes) (a : Addr) : Prop :=
  if a.zone ≠ [] then ¬ Listed cidrs (clientAddress a)
  else if a.is4In6 = true then (Listed cidrs a ↔ Listed cidrs a.unmap)
  else True

theorem any_mustParsePrefixes (cidrs : List Bytes) (a : Addr) :
    (mustParsePrefixes cidrs).any (fun p => p.contains a) = true ↔ Listed cidrs a := by
  simp only [mustParsePrefixes, List.any_eq_true, List.mem_filterMap, Listed]
  constructor
  · rintro ⟨p, ⟨c, hc, hp⟩, ha⟩
    exact ⟨c, hc, p, hp, ha⟩
  · rintro ⟨c, hc, p, hp, ha⟩
    exact ⟨p, ⟨c, hc, hp⟩, ha⟩

variable {cidrs : List Bytes}

/-- No prefix contains an address with a zone. -/
theorem not_listed_of_zone (h : a.zone ≠ []) : ¬ Listed cidrs a := by
  rintro ⟨_, _, p, _, ha⟩
  exact h ((contains_iff p a).1 ha).1

theorem clientAddress_of_zone_nil (h : a.zone = []) : clientAddress a = a.unmap := by
  unfold clientAddress Addr.unmap Addr.withoutZone
  split
  · rfl
  · rw [← h]

theorem clientAddress_of_mapped (h : a.is4In6 = true) : clientAddress a = a.unmap := by
  simp [clientAddress, Addr.unmap, Addr.withoutZone, h]

theorem denyIPsHandler_iff {t : Trust} {r : Request} (h : parseClientAddr t r = some a) :
    denyIPsHandler cidrs t r = .forbidden ↔ Listed cidrs a := by
  simp only [denyIPsHandler, ipInList, h, ← any_mustParsePrefixes]
  cases (mustParsePrefixes cidrs).any (fun p => p.contains a) <;> simp

theorem clientMatches_iff {t : Trust} {r : Request} (req : Docker.Request)
    (hne : mustParsePrefixes cidrs ≠ []) (h : parseClientAddr t r = some a) :
    clientMatches (mustParsePrefixes cidrs) (withClient t r req) = true ↔ Listed cidrs a.unmap := by
  simp only [clientMatches, withClient, if_neg hne, h, addrInPrefixes, any_mustParsePrefixes]

/-- The deny list and the route constraint decide by the client's address. -/
def MembershipExact (cidrs : List Bytes) (t : Trust) (r : Request) (req : Docker.Request)
    (a : Addr) : Prop :=
  (denyIPsHandler cidrs t r = .forbidden ↔ Listed cidrs (clientAddress a)) ∧
    (clientMatches (mustParsePrefixes cidrs) (withClient t r req) = true ↔
      Listed cidrs (clientAddress a))

/-- **Client membership.** For every trust configuration, request and list of at least one CIDR,
the deny list and the client constraint of a route both decide by the address that `clientIP` names
if and only if the spelling of that address is neutral for the list. -/
theorem client_membership_iff (cidrs : List Bytes) (t : Trust) (r : Request) (req : Docker.Request)
    (a : Addr) (hne : mustParsePrefixes cidrs ≠ []) (ha : Denotes (clientIP t r) a) :
    MembershipExact cidrs t r req a ↔ SpellingNeutral cidrs a := by
  have hparse := parseClientAddr_of_denotes ha
  rw [MembershipExact, denyIPsHandler_iff hparse, clientMatches_iff req hne hparse, SpellingNeutral]
  split
  · rename_i hzone
    have hdeny : ¬ Listed cidrs a := not_listed_of_zone hzone
    constructor
    · rintro ⟨h, _⟩ hlisted
      exact hdeny (h.2 hlisted)
    · intro hlisted
      refine ⟨iff_of_false hdeny hlisted, ?_⟩
      cases hmap : a.is4In6 with
      | true => rw [clientAddress_of_mapped hmap]
      | false =>
        have hunmap : a.unmap = a := by simp [Addr.unmap, hmap]
        rw [hunmap]
        exact iff_of_false hdeny hlisted
  · rename_i hzone
    rw [clientAddress_of_zone_nil (not_not.1 hzone)]
    split
    · exact ⟨fun h => h.1, fun h => ⟨h, Iff.rfl⟩⟩
    · rename_i hmap
      have hunmap : a.unmap = a := by simp [Addr.unmap, hmap]
      simp [hunmap]

/-- A listener that trusts `10.0.0.0/8` to name its clients in `X-Forwarded-For`. -/
def edge : Trust where
  policy := some ⟨mustParsePrefixes [lit "10.0.0.0/8"], lit "X-Forwarded-For"⟩

/-- A request from the trusted proxy on behalf of the named client. -/
def onBehalfOf (client : Bytes) : Request where
  remoteAddr := lit "10.0.0.1:4711"
  header := ⟨[(lit "X-Forwarded-For", [client])], by simp⟩

/-- `203.0.113.7` in its mapped form. -/
def mappedClient : Addr := ⟨false, 0xffffcb007107, [], by norm_num [bitLen]⟩

/-- `203.0.113.7`. -/
def plainClient : Addr := ⟨true, 0xcb007107, [], by norm_num [bitLen]⟩

theorem denotes_plainClient :
    Denotes (clientIP edge (onBehalfOf (lit "203.0.113.7:80"))) plainClient := by
  have htext : clientIP edge (onBehalfOf (lit "203.0.113.7:80")) =
      lit "203.0.113.7" ++ ch ':' :: lit "80" := by decide +kernel
  have hhost : parseAddr (lit "203.0.113.7") = some plainClient := by decide
  rw [htext]
  exact .port hhost rfl (by decide)

theorem denotes_mappedClient :
    Denotes (clientIP edge (onBehalfOf (lit "::ffff:203.0.113.7"))) mappedClient := by
  have htext : clientIP edge (onBehalfOf (lit "::ffff:203.0.113.7")) = lit "::ffff:203.0.113.7" := by
    decide +kernel
  have hhost : parseAddr (lit "::ffff:203.0.113.7") = some mappedClient := by decide
  rw [htext]
  exact .bare hhost

theorem client_membership_iff_plainClient :
    MembershipExact [lit "203.0.113.0/24"] edge (onBehalfOf (lit "203.0.113.7:80"))
      ⟨[], [], none, none, []⟩ plainClient :=
  (client_membership_iff _ _ _ _ plainClient (by decide) denotes_plainClient).2
    (by simp [SpellingNeutral, plainClient, Addr.is4In6])

/-- The listed client passes the deny list under the mapped spelling of its address. -/
theorem mapped_client_not_denied :
    Denotes (clientIP edge (onBehalfOf (lit "::ffff:203.0.113.7"))) mappedClient ∧
      Listed [lit "203.0.113.0/24"] (clientAddress mappedClient) ∧
      denyIPsHandler [lit "203.0.113.0/24"] edge (onBehalfOf (lit "::ffff:203.0.113.7")) = .next ∧
      denyIPsHandler [lit "203.0.113.0/24"] edge (onBehalfOf (lit "203.0.113.7")) = .forbidden := by
  have hlisted : Listed [lit "203.0.113.0/24"] (clientAddress mappedClient) :=
    (any_mustParsePrefixes _ _).1 (by decide)
  exact ⟨denotes_mappedClient, hlisted, by decide +kernel, by decide +kernel⟩

end Statute.Client
