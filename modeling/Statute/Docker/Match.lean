import Statute.Base.Bytes
import Statute.Base.Netip

/-!
# Compiled route matchers

`internal/docker/match.go` and the `Matcher` record of `internal/docker/rule.go`: how a compiled
matcher compares a request's host and path, and the syntactic containment test `matcherLE` that
refusal envelopes use to drop redundant elements.

* `matcherLE_sound`: what the test accepts is containment of request sets;
* `matcherLE_trans`: on patterns the compilers produce (`Matcher.Compiled`) the test is transitive,
  which is what makes absorption keep coverage.

Host folding is modelled over ASCII letters; hosts of compiled Traefik matchers are ASCII, and the
results below speak of requests with an ASCII host.
-/

namespace Statute.Docker

open Statute.Base

/-- How a compiled matcher compares hosts. -/
inductive HostKind where
  | any
  | exact
  | traefik
deriving DecidableEq, Repr

/-- How a compiled matcher compares paths. -/
inductive PathKind where
  | any
  | exact
  | segment
  | byte
deriving DecidableEq, Repr

/-- `int(kind)`. -/
def HostKind.rank : HostKind → ℕ
  | .any => 0
  | .exact => 1
  | .traefik => 2

/-- `int(kind)`. -/
def PathKind.rank : PathKind → ℕ
  | .any => 0
  | .exact => 1
  | .segment => 2
  | .byte => 3

/-- Native route policy awaiting provider resolution. -/
structure MiddlewareHints where
  timeout : Bytes := []
  rateLimit : Bytes := []
  compress : Bytes := []
deriving DecidableEq

/-- One compiled route matcher.  The CIDR texts of the source are canonical renderings of masked
prefixes; the model keeps the prefixes. -/
structure Matcher where
  host : Bytes := []
  hostKind : HostKind := .any
  path : Bytes := []
  pathKind : PathKind := .any
  middlewares : List Bytes := []
  hints : MiddlewareHints := {}
  peerIPCIDRs : List Prefix := []
  listenerNames : List Bytes := []
  priority : ℤ := 0
  priorityOrder : Bool := false
deriving DecidableEq

/-- The wildcard suffix of statute patterns. -/
def wildcard : Bytes := lit "/*"

def statutePathKind (pattern : Bytes) : PathKind :=
  if pattern = [] ∨ pattern = wildcard then .any
  else if hasSuffix pattern wildcard then .segment
  else .exact

def compileNative (host path : Bytes) : Matcher :=
  if host = [] then { path := path, pathKind := statutePathKind path }
  else { host := host, hostKind := .exact, path := path, pathKind := statutePathKind path }

/-! ### Matching -/

/-- `matchTraefikHost`: equal after folding, or one trailing dot on the rule, or one on the
request. -/
def matchTraefikHost (configured reqHost : Bytes) : Bool :=
  let configured := toLower configured
  let reqHost := toLower reqHost
  reqHost == configured ||
    (configured.getLast? == some (ch '.') && reqHost == configured.dropLast) ||
    (reqHost.getLast? == some (ch '.') && reqHost.dropLast == configured)

def matchSegmentPrefix (pattern path : Bytes) : Bool :=
  match cutSuffix pattern wildcard with
  | (_, false) => pattern == path
  | (before, true) =>
    before == [] || path == before || hasPrefix path (before ++ lit "/")

def Matcher.matchHost (m : Matcher) (host : Bytes) : Bool :=
  match m.hostKind with
  | .any => true
  | .exact => m.host != [] && equalFold m.host host
  | .traefik => matchTraefikHost m.host host

def Matcher.matchPath (m : Matcher) (path : Bytes) : Bool :=
  match m.pathKind with
  | .any => true
  | .exact => path == m.path
  | .segment => matchSegmentPrefix m.path path
  | .byte => hasPrefix path m.path

/-- `Matcher.Match`: whether host and path satisfy this matcher. -/
def Matcher.matches (m : Matcher) (host path : Bytes) : Bool := m.matchHost host && m.matchPath path

/-- What the dispatcher reads of a request: the host without its port, the decoded path, the peer
address when `RemoteAddr` parses, the verified client address when there is one, and the name of the
listener that accepted it. -/
structure Request where
  host : Bytes
  path : Bytes
  peer : Option Addr := none
  client : Option Addr := none
  listener : Bytes := []
deriving DecidableEq

/-- A request with an ASCII host and a rooted path. -/
structure HttpRequest extends Request where
  ascii : isASCII host = true
  rooted : lit "/" <+: path

def addrInPrefixes (addr : Addr) (prefixes : List Prefix) : Bool :=
  prefixes.any (fun p => p.contains addr.unmap)

/-- `routePeerMatches`: no prefixes, or the peer address without its zone lies in one of them. -/
def routePeerMatches (prefixes : List Prefix) (req : Request) : Bool :=
  if prefixes = [] then true
  else match req.peer with
    | none => false
    | some peer => addrInPrefixes peer.withoutZone prefixes

/-- Whether the request's host, path and peer satisfy this matcher. -/
def Matcher.accepts (m : Matcher) (req : Request) : Bool :=
  m.matches req.host req.path && routePeerMatches m.peerIPCIDRs req

def traefikHostForbidden (h : Bytes) : Bool := h == lit "*" || containsByte h (ch '*')

def pathHasPercent (a : Bytes) : Bool := containsByte a (ch '%')

/-! ### Containment -/

def Matcher.anyHost (m : Matcher) : Bool := m.hostKind == .any

def Matcher.anyPath (m : Matcher) : Bool :=
  m.pathKind == .any || (m.pathKind == .byte && m.path == lit "/")

def traefikHostLE (a b : Bytes) : Bool :=
  let a := toLower a
  let b := toLower b
  a == b || (!hasSuffix a (lit ".") && b == a ++ lit ".")

def hostMatcherLE (a b : Matcher) : Bool :=
  if b.anyHost then true
  else if a.anyHost then false
  else match b.hostKind, a.hostKind with
    | .exact, .exact => equalFold a.host b.host
    | .traefik, .exact => matchTraefikHost b.host a.host
    | .traefik, .traefik => traefikHostLE a.host b.host
    | _, _ => false

def bytePrefixCovers (a : Matcher) (pre : Bytes) : Bool :=
  if pre = lit "/" then true
  else match a.pathKind with
    | .byte => hasPrefix a.path pre
    | .segment =>
      match cutSuffix a.path wildcard with
      | (before, ok) => ok && before != [] && hasPrefix before pre
    | .exact => hasPrefix a.path pre
    | .any => false

def segmentCovers (a : Matcher) (pattern : Bytes) : Bool :=
  match cutSuffix pattern wildcard with
  | (_, false) => a.pathKind == .exact && a.path == pattern
  | (bp, true) =>
    if bp = [] then true
    else match a.pathKind with
      | .byte => hasPrefix a.path (bp ++ lit "/")
      | .segment =>
        let ap := (cutSuffix a.path wildcard).1
        ap == bp || hasPrefix ap (bp ++ lit "/")
      | .exact => matchSegmentPrefix pattern a.path
      | .any => false

def pathMatcherLE (a b : Matcher) : Bool :=
  if b.anyPath then true
  else if a.anyPath then false
  else match b.pathKind with
    | .exact => a.pathKind == .exact && a.path == b.path
    | .segment => segmentCovers a b.path
    | .byte => bytePrefixCovers a b.path
    | .any => false

/-- `matcherLE`: whether the test finds every request of `a` matched by `b`. -/
def matcherLE (a b : Matcher) : Bool := hostMatcherLE a b && pathMatcherLE a b

/-! ### The host comparison in list form -/

theorem getLast_dropLast_iff (s t : Bytes) (c : UInt8) :
    (s.getLast? = some c ∧ t = s.dropLast) ↔ s = t ++ [c] := by
  constructor
  · rintro ⟨hlast, rfl⟩
    have hne : s ≠ [] := by rintro rfl; simp at hlast
    rw [List.getLast?_eq_some_getLast hne, Option.some.injEq] at hlast
    rw [← hlast, List.dropLast_append_getLast hne]
  · rintro rfl
    simp

theorem matchTraefikHost_iff (c r : Bytes) :
    matchTraefikHost c r = true ↔
      toLower r = toLower c ∨ toLower c = toLower r ++ lit "." ∨
        toLower r = toLower c ++ lit "." := by
  have h1 := getLast_dropLast_iff (toLower c) (toLower r) (ch '.')
  have h2 := getLast_dropLast_iff (toLower r) (toLower c) (ch '.')
  have hdot : lit "." = [ch '.'] := by decide
  simp only [matchTraefikHost, Bool.or_eq_true, Bool.and_eq_true, beq_iff_eq, hdot, ← h1, ← h2,
    or_assoc]
  tauto

/-- The comparison does not see the case of either spelling. -/
theorem matchTraefikHost_congr {c c' r r' : Bytes} (hc : toLower c = toLower c')
    (hr : toLower r = toLower r') : matchTraefikHost c r = matchTraefikHost c' r' := by
  simp [matchTraefikHost, hc, hr]

theorem traefikHostLE_iff (a b : Bytes) :
    traefikHostLE a b = true ↔
      toLower a = toLower b ∨ (¬ lit "." <:+ toLower a ∧ toLower b = toLower a ++ lit ".") := by
  have h : (!hasSuffix (toLower a) (lit ".")) = true ↔ ¬ lit "." <:+ toLower a := by
    rw [Bool.not_eq_true', Bool.eq_false_iff, ne_eq, hasSuffix_iff]
  simp [traefikHostLE, h]

/-- `HostTraefik(a)` is contained in `HostTraefik(b)` when the test says so: a spelling without a
trailing dot matches at most itself and itself with a dot. -/
theorem traefikHostLE_sound {a b r : Bytes} (hle : traefikHostLE a b = true)
    (hm : matchTraefikHost a r = true) : matchTraefikHost b r = true := by
  rw [traefikHostLE_iff] at hle
  rw [matchTraefikHost_iff] at hm ⊢
  rcases hle with heq | ⟨hnodot, hb⟩
  · rwa [← heq]
  · rcases hm with h | h | h
    · right; left
      rw [hb, h]
    · exact absurd ⟨toLower r, h.symm⟩ hnodot
    · left
      rw [hb, h]

theorem traefikHostLE_trans {a b c : Bytes} (hab : traefikHostLE a b = true)
    (hbc : traefikHostLE b c = true) : traefikHostLE a c = true := by
  rw [traefikHostLE_iff] at hab hbc ⊢
  rcases hab with hab | ⟨hna, hab⟩
  · rwa [hab]
  · rcases hbc with hbc | ⟨hnb, hbc⟩
    · exact Or.inr ⟨hna, hbc ▸ hab⟩
    · exact absurd ⟨toLower a, hab.symm⟩ hnb

/-! ### Soundness of the containment test -/

variable {a b : Matcher}

theorem hostMatcherLE_sound {host : Bytes} (hle : hostMatcherLE a b = true)
    (hm : a.matchHost host = true) : b.matchHost host = true := by
  cases hb : b.hostKind <;> cases ha : a.hostKind <;>
    simp [hostMatcherLE, Matcher.anyHost, Matcher.matchHost, ha, hb] at hle hm ⊢
  · -- exact in exact
    refine ⟨fun h => hm.1 ?_, by rw [← hle, hm.2]⟩
    rw [h, (toLower_eq_nil []).2 rfl, toLower_eq_nil] at hle
    exact hle
  · -- exact in traefik
    rw [← hle]
    exact (matchTraefikHost_congr rfl hm.2).symm
  · exact traefikHostLE_sound hle hm

theorem matchSegmentPrefix_append (base path : Bytes) :
    matchSegmentPrefix (base ++ wildcard) path = true ↔
      base = [] ∨ path = base ∨ base ++ lit "/" <+: path := by
  simp [matchSegmentPrefix, cutSuffix_append, or_assoc]

/-- A pattern either ends in the wildcard or is cut as it stands. -/
theorem cutSuffix_cases (p : Bytes) :
    (∃ base, p = base ++ wildcard ∧ cutSuffix p wildcard = (base, true)) ∨
      cutSuffix p wildcard = (p, false) := by
  by_cases h : wildcard <:+ p
  · obtain ⟨base, rfl⟩ := h
    exact Or.inl ⟨base, rfl, cutSuffix_append base wildcard⟩
  · exact Or.inr (cutSuffix_of_not h)

variable {path : Bytes}

theorem bytePrefixCovers_sound {pre : Bytes} (hroot : pre = lit "/" → lit "/" <+: path)
    (hle : bytePrefixCovers a pre = true) (hm : a.matchPath path = true) : pre <+: path := by
  unfold bytePrefixCovers at hle
  split at hle
  · rename_i h
    rw [h]
    exact hroot h
  · cases hk : a.pathKind <;> simp only [hk] at hle <;> simp only [Matcher.matchPath, hk] at hm
    · cases hle
    · rw [hasPrefix_iff] at hle
      rw [beq_iff_eq] at hm
      rwa [hm]
    · rcases cutSuffix_cases a.path with ⟨base, hbase, hcut⟩ | hcut
      · simp only [hcut, Bool.true_and, Bool.and_eq_true, bne_iff_ne, hasPrefix_iff] at hle
        rw [hbase, matchSegmentPrefix_append] at hm
        rcases hm with h | h | h
        · exact absurd h hle.1
        · rw [h]; exact hle.2
        · exact hle.2.trans ((List.prefix_append base _).trans h)
      · simp [hcut] at hle
    · rw [hasPrefix_iff] at hle hm
      exact hle.trans hm

theorem segmentCovers_sound {pattern : Bytes} (hle : segmentCovers a pattern = true)
    (hm : a.matchPath path = true) : matchSegmentPrefix pattern path = true := by
  rcases cutSuffix_cases pattern with ⟨bp, rfl, hcut⟩ | hcut
  · simp only [segmentCovers, hcut] at hle
    rw [matchSegmentPrefix_append]
    split at hle
    · rename_i h
      exact Or.inl h
    · right
      cases hk : a.pathKind <;> simp only [hk] at hle <;> simp only [Matcher.matchPath, hk] at hm
      · cases hle
      · rw [matchSegmentPrefix_append] at hle
        rw [beq_iff_eq] at hm
        rw [hm]
        exact hle.resolve_left (by assumption)
      · simp only [Bool.or_eq_true, beq_iff_eq, hasPrefix_iff] at hle
        rcases cutSuffix_cases a.path with ⟨ap, hap, hcut'⟩ | hcut'
        · simp only [hcut'] at hle
          rw [hap, matchSegmentPrefix_append] at hm
          rcases hle with h | h
          · rw [h] at hm
            exact hm.resolve_left (by assumption)
          · right
            rcases hm with hm | hm | hm
            · rw [hm] at h
              exact absurd (List.prefix_nil.1 h) (by simp [lit])
            · rwa [hm]
            · exact h.trans ((List.prefix_append ap _).trans hm)
        · simp only [hcut'] at hle
          simp only [matchSegmentPrefix, hcut', beq_iff_eq] at hm
          rwa [← hm]
      · rw [hasPrefix_iff] at hle hm
        exact Or.inr (hle.trans hm)
  · simp only [segmentCovers, hcut, Bool.and_eq_true, beq_iff_eq] at hle
    simp only [Matcher.matchPath, hle.1, beq_iff_eq] at hm
    simp [matchSegmentPrefix, hcut, hm, hle.2]

theorem pathMatcherLE_sound (hroot : b.pathKind = .byte → b.path = lit "/" → lit "/" <+: path)
    (hle : pathMatcherLE a b = true) (hm : a.matchPath path = true) : b.matchPath path = true := by
  unfold pathMatcherLE at hle
  split at hle
  · rename_i hany
    simp only [Matcher.anyPath, Bool.or_eq_true, Bool.and_eq_true, beq_iff_eq] at hany
    rcases hany with hk | ⟨hk, hp⟩
    · simp [Matcher.matchPath, hk]
    · simp [Matcher.matchPath, hk, hp, hroot hk hp]
  · split at hle
    · cases hle
    · cases hk : b.pathKind <;> simp only [hk] at hle
      · cases hle
      · simp only [Bool.and_eq_true, beq_iff_eq] at hle
        simp only [Matcher.matchPath, hle.1, beq_iff_eq] at hm
        simp [Matcher.matchPath, hk, hm, hle.2]
      · simpa only [Matcher.matchPath, hk] using segmentCovers_sound hle hm
      · simpa only [Matcher.matchPath, hk, hasPrefix_iff] using
          bytePrefixCovers_sound (hroot hk) hle hm

/-- **The containment test is sound.**  A request of `a` with a rooted path is a request of `b`. -/
theorem matcherLE_sound {host : Bytes} (hroot : lit "/" <+: path) (hle : matcherLE a b = true)
    (hm : a.matches host path = true) : b.matches host path = true := by
  simp only [matcherLE, Bool.and_eq_true] at hle
  simp only [Matcher.matches, Bool.and_eq_true] at hm ⊢
  exact ⟨hostMatcherLE_sound hle.1 hm.1, pathMatcherLE_sound (fun _ _ => hroot) hle.2 hm.2⟩

/-! ### Transitivity of the containment test -/

/-- The patterns the compilers produce: a segment pattern is a non-empty base and the wildcard. -/
def Matcher.Compiled (m : Matcher) : Prop :=
  m.pathKind = .segment → ∃ base, base ≠ [] ∧ m.path = base ++ wildcard

theorem compiled_of_statutePathKind {m : Matcher} (h : m.pathKind = statutePathKind m.path) :
    m.Compiled := by
  intro hseg
  rw [hseg] at h
  unfold statutePathKind at h
  split at h
  · cases h
  · rename_i hne
    split at h
    · rename_i hsuf
      obtain ⟨base, hbase⟩ := (hasSuffix_iff _ _).1 hsuf
      refine ⟨base, ?_, hbase.symm⟩
      rintro rfl
      exact hne (Or.inr (by simpa using hbase.symm))
    · cases h

/-- What the compilers emit: a host wherever one is compared, a non-empty base before the wildcard of
a segment pattern, and the pattern for every path in place of `PathPrefix("/")`. -/
structure Emitted (host : Bytes) (hostKind : HostKind) (path : Bytes) (pathKind : PathKind) : Prop where
  anyHost : hostKind = .any ↔ host = []
  segment : pathKind = .segment → ∃ base, base ≠ [] ∧ path = base ++ wildcard
  byte : pathKind = .byte → path ≠ lit "/"
  everyPath : pathKind = .any → path = [] ∨ path = wildcard

def Matcher.Emitted (m : Matcher) : Prop := Docker.Emitted m.host m.hostKind m.path m.pathKind

theorem Matcher.Emitted.compiled {m : Matcher} (h : m.Emitted) : m.Compiled := h.segment

theorem emitted_of_statutePathKind {m : Matcher} (hhost : m.hostKind = .any ↔ m.host = [])
    (h : m.pathKind = statutePathKind m.path) : m.Emitted := by
  refine ⟨hhost, compiled_of_statutePathKind h, fun hk => ?_, fun hk => ?_⟩
  · rw [h, statutePathKind] at hk
    split_ifs at hk
  · rw [h, statutePathKind] at hk
    split_ifs at hk with hany
    exact hany

theorem hostMatcherLE_trans {c : Matcher} (hab : hostMatcherLE a b = true)
    (hbc : hostMatcherLE b c = true) : hostMatcherLE a c = true := by
  cases hc : c.hostKind <;> cases hb : b.hostKind <;> cases ha : a.hostKind <;>
    simp [hostMatcherLE, Matcher.anyHost, ha, hb, hc] at hab hbc ⊢
  · exact hab.trans hbc
  · rw [matchTraefikHost_congr rfl hab]
    exact hbc
  · exact traefikHostLE_sound hbc hab
  · exact traefikHostLE_trans hab hbc

theorem bytePrefixCovers_mono {p q : Bytes} (hp : p ≠ lit "/") (hqp : q <+: p)
    (h : bytePrefixCovers a p = true) : bytePrefixCovers a q = true := by
  unfold bytePrefixCovers at h ⊢
  rw [if_neg hp] at h
  split
  · rfl
  · cases hk : a.pathKind <;> simp only [hk] at h ⊢
    · cases h
    · rw [hasPrefix_iff] at h ⊢
      exact hqp.trans h
    · simp only [Bool.and_eq_true, hasPrefix_iff] at h ⊢
      exact ⟨h.1, hqp.trans h.2⟩
    · rw [hasPrefix_iff] at h ⊢
      exact hqp.trans h

/-- A compiled matcher under a segment pattern starts with every byte prefix of its base. -/
theorem bytePrefixCovers_of_segment {base q : Bytes} (ha : a.Compiled) (hbase : base ≠ [])
    (hq : q <+: base) (h : segmentCovers a (base ++ wildcard) = true) :
    bytePrefixCovers a q = true := by
  unfold bytePrefixCovers
  split
  · rfl
  · simp only [segmentCovers, cutSuffix_append, if_neg hbase] at h
    cases hk : a.pathKind <;> simp only [hk] at h ⊢
    · cases h
    · rw [matchSegmentPrefix_append] at h
      rw [hasPrefix_iff]
      rcases h with h | h | h
      · exact absurd h hbase
      · rwa [h]
      · exact hq.trans ((List.prefix_append base _).trans h)
    · obtain ⟨ab, hab, hpath⟩ := ha hk
      simp only [hpath, cutSuffix_append, Bool.or_eq_true, beq_iff_eq, hasPrefix_iff] at h
      simp only [hpath, cutSuffix_append, Bool.true_and, Bool.and_eq_true, bne_iff_ne,
        hasPrefix_iff]
      refine ⟨hab, ?_⟩
      rcases h with h | h
      · rwa [h]
      · exact hq.trans ((List.prefix_append base _).trans h)
    · rw [hasPrefix_iff] at h ⊢
      exact hq.trans ((List.prefix_append base _).trans h)

/-- A matcher that starts with `base ++ "/"` lies under the segment pattern of `base`. -/
theorem segmentCovers_of_bytePrefix {base p : Bytes} (hbase : base ≠ []) (hp : p ≠ lit "/")
    (hbp : base ++ lit "/" <+: p) (h : bytePrefixCovers a p = true) :
    segmentCovers a (base ++ wildcard) = true := by
  simp only [bytePrefixCovers, if_neg hp] at h
  simp only [segmentCovers, cutSuffix_append, if_neg hbase]
  cases hk : a.pathKind <;> simp only [hk] at h ⊢
  · cases h
  · rw [hasPrefix_iff] at h
    rw [matchSegmentPrefix_append]
    exact Or.inr (Or.inr (hbp.trans h))
  · simp only [Bool.and_eq_true, hasPrefix_iff] at h
    simp only [Bool.or_eq_true, hasPrefix_iff]
    exact Or.inr (hbp.trans h.2)
  · rw [hasPrefix_iff] at h ⊢
    exact hbp.trans h

theorem segmentCovers_trans {base : Bytes} (hb : b.Compiled) (hbs : b.pathKind = .segment)
    (hbase : base ≠ []) (hab : segmentCovers a b.path = true)
    (hbc : segmentCovers b (base ++ wildcard) = true) :
    segmentCovers a (base ++ wildcard) = true := by
  obtain ⟨bb, hbb, hpath⟩ := hb hbs
  simp only [segmentCovers, cutSuffix_append, if_neg hbase, hbs, hpath, Bool.or_eq_true,
    beq_iff_eq, hasPrefix_iff] at hbc
  rcases hbc with rfl | hpre
  · rwa [hpath] at hab
  · -- the longer base starts with the shorter one and a slash
    rw [hpath] at hab
    simp only [segmentCovers, cutSuffix_append, if_neg hbb, if_neg hbase] at hab ⊢
    cases hk : a.pathKind <;> simp only [hk] at hab ⊢
    · cases hab
    · rw [matchSegmentPrefix_append] at hab ⊢
      rcases hab with h | h | h
      · exact absurd h hbb
      · rw [h]
        exact Or.inr (Or.inr hpre)
      · exact Or.inr (Or.inr (hpre.trans ((List.prefix_append bb _).trans h)))
    · simp only [Bool.or_eq_true, beq_iff_eq, hasPrefix_iff] at hab ⊢
      rcases hab with h | h
      · rw [h]
        exact Or.inr hpre
      · exact Or.inr (hpre.trans ((List.prefix_append bb _).trans h))
    · rw [hasPrefix_iff] at hab ⊢
      exact hpre.trans ((List.prefix_append bb _).trans hab)

theorem pathMatcherLE_trans {c : Matcher} (ha : a.Compiled) (hb : b.Compiled) (hc : c.Compiled)
    (hab : pathMatcherLE a b = true) (hbc : pathMatcherLE b c = true) :
    pathMatcherLE a c = true := by
  cases hcany : c.anyPath with
  | true => simp [pathMatcherLE, hcany]
  | false =>
    cases hbany : b.anyPath with
    | true => simp [pathMatcherLE, hcany, hbany] at hbc
    | false =>
      cases haany : a.anyPath with
      | true => simp [pathMatcherLE, haany, hbany] at hab
      | false =>
        simp only [pathMatcherLE, hcany, hbany, haany, Bool.false_eq_true, if_false] at hab hbc ⊢
        cases hck : c.pathKind <;> simp only [hck] at hbc ⊢
        · cases hbc
        · simp only [Bool.and_eq_true, beq_iff_eq] at hbc ⊢
          simp only [hbc.1, Bool.and_eq_true, beq_iff_eq] at hab
          exact ⟨hab.1, hab.2.trans hbc.2⟩
        · obtain ⟨cb, hcb, hcp⟩ := hc hck
          rw [hcp] at hbc ⊢
          cases hbk : b.pathKind <;> simp only [hbk] at hab
          · cases hab
          · simp only [Bool.and_eq_true, beq_iff_eq] at hab
            simp only [segmentCovers, cutSuffix_append, if_neg hcb, hbk, hab.1, hab.2] at hbc ⊢
            exact hbc
          · exact segmentCovers_trans hb hbk hcb hab hbc
          · have hbp : b.path ≠ lit "/" := by
              intro h
              simp [Matcher.anyPath, hbk, h] at hbany
            simp only [segmentCovers, cutSuffix_append, if_neg hcb, hbk, hasPrefix_iff] at hbc
            exact segmentCovers_of_bytePrefix hcb hbp hbc hab
        · cases hbk : b.pathKind <;> simp only [hbk] at hab
          · cases hab
          · simp only [Bool.and_eq_true, beq_iff_eq] at hab
            simp only [bytePrefixCovers, hbk, hab.1, hab.2] at hbc ⊢
            exact hbc
          · obtain ⟨bb, hbb, hbp⟩ := hb hbk
            rw [hbp] at hab
            unfold bytePrefixCovers at hbc
            split at hbc
            · rename_i h
              simp [bytePrefixCovers, h]
            · simp only [hbk, hbp, cutSuffix_append, Bool.true_and, Bool.and_eq_true,
                hasPrefix_iff] at hbc
              exact bytePrefixCovers_of_segment ha hbb hbc.2 hab
          · have hbp : b.path ≠ lit "/" := by
              intro h
              simp [Matcher.anyPath, hbk, h] at hbany
            unfold bytePrefixCovers at hbc
            split at hbc
            · rename_i h
              simp [bytePrefixCovers, h]
            · simp only [hbk, hasPrefix_iff] at hbc
              exact bytePrefixCovers_mono hbp hbc hab

/-- **The containment test is transitive** on compiled patterns. -/
theorem matcherLE_trans {c : Matcher} (ha : a.Compiled) (hb : b.Compiled) (hc : c.Compiled)
    (hab : matcherLE a b = true) (hbc : matcherLE b c = true) : matcherLE a c = true := by
  simp only [matcherLE, Bool.and_eq_true] at hab hbc ⊢
  exact ⟨hostMatcherLE_trans hab.1 hbc.1, pathMatcherLE_trans ha hb hc hab.2 hbc.2⟩

end Statute.Docker
