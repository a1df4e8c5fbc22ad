import Statute.Base.Header
import Statute.Base.TextSet
import Mathlib.Data.Int.Order.Basic

/-!
# Header fields as the cache reads them

The readers of `cache_representation.go` and the sizes of `cache_limits.go`: the values of a field
under any spelling of its name, the names a response varies on, the snapshot of a request under
those names, and what keeping the metadata of an entry costs.

A request matches a snapshot exactly when it would itself produce it (`varyMatches_iff`).
-/

namespace Statute.Cache

open Statute.Base

/-! ### Sizes -/

/-- `cacheScratchBytes`: 512 KiB. -/
def cacheScratchBytes : ℤ := 524288

def cacheEntryControlBytes : ℤ := 512

/-- `cacheKeyBytes`: 16 KiB. -/
def cacheKeyBytes : ℤ := 16384

/-- `cacheHeaderBytes`: 64 KiB. -/
def cacheHeaderBytes : ℤ := 65536

def cacheHeaderNames : ℤ := 256

def cacheHeaderValueLimit : ℤ := 1024

def cacheVaryTokenLimit : ℤ := 256

/-- `len`, as the signed integer the sizes are computed in. -/
def len {α : Type} (s : List α) : ℤ := s.length

theorem len_nonneg {α : Type} (s : List α) : 0 ≤ len s := Int.natCast_nonneg _

/-! ### Values of a field -/

/-- The keys of a header that spell `name`. -/
def foldedKeys (h : Header) (name : Bytes) : List Bytes :=
  (h.entries.map Prod.fst).filter (fun key => equalFold key name)

/-- `cacheHeaderValues`: the values under every spelling of a name, in key order, and whether there
is one. -/
def cacheHeaderValues (h : Header) (name : Bytes) : List Bytes × Bool :=
  let keys := stableSort (fun a b => a < b) (foldedKeys h name)
  (keys.flatMap (fun key => (h.lookup key).getD []), !keys.isEmpty)

/-- The loop of `cacheFieldTokenCount` over the values of a field. -/
def countTokens : ℤ → List Bytes → ℤ × Bool
  | tokens, [] => (tokens, true)
  | tokens, value :: values =>
    let tokens := tokens + 1 + value.count (ch ',')
    if tokens > cacheVaryTokenLimit then (tokens, false) else countTokens tokens values

def cacheFieldTokenCount (h : Header) (field : Bytes) (tokens : ℤ) : ℤ × Bool :=
  countTokens tokens ((h.entries.filter (fun e => equalFold e.1 field)).flatMap Prod.snd)

def cacheVaryTokenCount (h : Header) (tokens : ℤ) : ℤ × Bool :=
  cacheFieldTokenCount h (lit "Vary") tokens

/-! ### Cost of a header -/

/-- The inner loop of `cacheHeaderCost`: the values of one name. -/
def valuesCost : ℤ → List Bytes → Option ℤ
  | cost, [] => some cost
  | cost, value :: values =>
    if len value > cacheHeaderBytes - cost then none else valuesCost (cost + len value) values

/-- The outer loop of `cacheHeaderCost`, with the number of values so far. -/
def entriesCost : ℤ → ℤ → List (Bytes × List Bytes) → Option ℤ
  | cost, _, [] => some cost
  | cost, values, (name, vv) :: rest =>
    if len name > cacheHeaderBytes ∨ len vv > cacheHeaderValueLimit - values then none
    else
      let cost := cost + 128 + len name + len vv * 32
      if cost > cacheHeaderBytes then none
      else
        match valuesCost cost vv with
        | none => none
        | some cost => entriesCost cost (values + len vv) rest

/-- `cacheHeaderCost`; `none` when the header is over a limit. -/
def cacheHeaderCost (h : Header) : Option ℤ :=
  if len h.entries > cacheHeaderNames then none
  else
    match entriesCost 256 0 h.entries with
    | none => none
    | some cost =>
      if (cacheVaryTokenCount h 0).2 = false then none
      else
        let trailers := cacheFieldTokenCount h (lit "Trailer") 0
        let cost := cost + trailers.1 * 32
        if trailers.2 = true ∧ cost ≤ cacheHeaderBytes then some cost else none

theorem countTokens_le (tokens : ℤ) (values : List Bytes) : tokens ≤ (countTokens tokens values).1 := by
  induction values generalizing tokens with
  | nil => exact le_refl _
  | cons value values ih =>
    simp only [countTokens]
    split
    · simp only
      omega
    · have := ih (tokens + 1 + value.count (ch ','))
      omega

variable {cost total : ℤ}

theorem le_valuesCost {values : List Bytes} (h : valuesCost cost values = some total) :
    cost ≤ total := by
  induction values generalizing cost with
  | nil => exact le_of_eq (Option.some.inj h)
  | cons value values ih =>
    obtain ⟨_, h⟩ := Option.ite_none_left_eq_some.1 h
    have hrest := ih h
    have hlen := len_nonneg value
    omega

theorem le_entriesCost {values : ℤ} {entries : List (Bytes × List Bytes)}
    (h : entriesCost cost values entries = some total) : cost ≤ total := by
  induction entries generalizing cost values with
  | nil => exact le_of_eq (Option.some.inj h)
  | cons entry rest ih =>
    obtain ⟨name, vv⟩ := entry
    obtain ⟨_, h⟩ := Option.ite_none_left_eq_some.1 h
    dsimp only at h
    obtain ⟨_, h⟩ := Option.ite_none_left_eq_some.1 h
    cases hvalues : valuesCost (cost + 128 + len name + len vv * 32) vv with
    | none => simp [hvalues] at h
    | some mid =>
      simp only [hvalues] at h
      have hrest := ih h
      have hmid := le_valuesCost hvalues
      have hname := len_nonneg name
      have hvv := len_nonneg vv
      omega

/-- A header costs something. -/
theorem cacheHeaderCost_nonneg {h : Header} (hcost : cacheHeaderCost h = some cost) : 0 ≤ cost := by
  unfold cacheHeaderCost at hcost
  obtain ⟨_, hcost⟩ := Option.ite_none_left_eq_some.1 hcost
  cases hentries : entriesCost 256 0 h.entries with
  | none => simp [hentries] at hcost
  | some base =>
    simp only [hentries] at hcost
    obtain ⟨_, hcost⟩ := Option.ite_none_left_eq_some.1 hcost
    obtain ⟨_, hcost⟩ := Option.ite_none_right_eq_some.1 hcost
    have hbase := le_entriesCost hentries
    have htrailers : 0 ≤ (cacheFieldTokenCount h (lit "Trailer") 0).1 := countTokens_le 0 _
    have := Option.some.inj hcost
    omega

/-! ### Projection of hoisted header operations -/

/-- `headerOp`: an operation on the response header that an outer middleware has hoisted, with what
the cost of its projection reads. -/
structure HeaderOp where
  name : Bytes
  value : Bytes
  ensureVary : Bool := false
  apply : Header → Header

/-- `responseHeadersForCache`: the header as the hoisted operations leave it. -/
def responseHeadersForCache (ops : List HeaderOp) (h : Header) : Header :=
  ops.foldl (fun h op => op.apply h) h

/-- `cacheProjectionCost`. -/
structure ProjectionCost where
  cost : ℤ
  values : ℤ
  varyTokens : ℤ
  trailerTokens : ℤ

/-- `cacheProjectionCost.add`; `none` when a limit is passed. -/
def ProjectionCost.add (a : ProjectionCost) (op : HeaderOp) : Option ProjectionCost :=
  if len op.name > cacheHeaderBytes ∨ len op.value > cacheHeaderBytes then none
  else
    let tokens : ℤ := 1 + op.value.count (ch ',')
    let a := { a with cost := a.cost + 160 + len op.name + len op.value, values := a.values + 1 }
    let a := if op.ensureVary || equalFold op.name (lit "Vary") then
        { a with varyTokens := a.varyTokens + tokens } else a
    let a := if equalFold op.name (lit "Trailer") then
        { a with trailerTokens := a.trailerTokens + tokens, cost := a.cost + tokens * 32,
                 values := a.values + tokens } else a
    if a.cost ≤ cacheHeaderBytes ∧ a.values ≤ cacheHeaderValueLimit ∧
        a.varyTokens ≤ cacheVaryTokenLimit ∧ a.trailerTokens ≤ cacheVaryTokenLimit then some a
    else none

/-- `cacheProjectionPreflight`: the projection of the header stays within the limits. -/
def cacheProjectionPreflight (ops : List HeaderOp) (h : Header) : Bool :=
  match cacheHeaderCost h with
  | none => false
  | some cost =>
    if len ops > cacheHeaderNames - len h.entries then false
    else
      let start : ProjectionCost :=
        { cost := cost, values := len (h.entries.flatMap Prod.snd),
          varyTokens := (cacheVaryTokenCount h 0).1,
          trailerTokens := (cacheFieldTokenCount h (lit "Trailer") 0).1 }
      (ops.foldlM ProjectionCost.add start).isSome

/-! ### Variance -/

/-- `strings.TrimLeft` with a set of bytes. -/
def trimLeftOf (cutset s : Bytes) : Bytes := s.dropWhile (fun c => cutset.contains c)

/-- `strings.Trim` with a set of bytes. -/
def trimOf (cutset s : Bytes) : Bytes := (trimLeftOf cutset (trimLeftOf cutset s).reverse).reverse

/-- The names in the values of a `Vary` field, in lower case. -/
def varyNames (values : List Bytes) : List Bytes :=
  (values.flatMap (fun value =>
    (split (ch ',') value).map (fun field => toLower (trimOf (lit " \t") field)))).filter (· ≠ [])

/-- The token count of `cacheVary` over all headers. -/
def varyWithinLimit : ℤ → List Header → Bool
  | _, [] => true
  | tokens, h :: rest =>
    let counted := cacheVaryTokenCount h tokens
    if counted.2 = false then false else varyWithinLimit counted.1 rest

/-- `cacheVary`: the sorted names that any of the headers varies on; `none` when one of them is not a
field name or the wildcard. -/
def cacheVary (headers : List Header) : Option (List Bytes) :=
  if varyWithinLimit 0 headers = false then none
  else
    let names := headers.flatMap (fun h => varyNames (cacheHeaderValues h (lit "Vary")).1)
    if names.any (fun name => name == lit "*" || !validHeaderFieldName name) then none
    else some (textSet names)

/-- `cacheVaryField`. -/
structure VaryField where
  name : Bytes
  values : List Bytes
  present : Bool
deriving DecidableEq

/-- One field of a snapshot. -/
def varyField (headers : Header) (name : Bytes) : VaryField where
  name := name
  values := (cacheHeaderValues headers name).1
  present := (cacheHeaderValues headers name).2

def cacheSnapshotVary (headers : Header) (names : List Bytes) : List VaryField :=
  names.map (varyField headers)

/-- `cacheEntry.matches` for the snapshot of an entry. -/
def varyMatches (vary : List VaryField) (headers : Header) : Bool :=
  vary.all (fun field =>
    (cacheHeaderValues headers field.name).2 == field.present &&
      (cacheHeaderValues headers field.name).1 == field.values)

def sameVary (a b : List VaryField) : Bool := a.map VaryField.name == b.map VaryField.name

@[simp] theorem names_cacheSnapshotVary (headers : Header) (names : List Bytes) :
    (cacheSnapshotVary headers names).map VaryField.name = names := by
  simp only [cacheSnapshotVary, List.map_map]
  exact List.map_id names

/-- **Matching.** A request matches a snapshot exactly when its own snapshot is the same. -/
theorem varyMatches_iff (vary : List VaryField) (headers : Header) :
    varyMatches vary headers = true ↔
      vary = cacheSnapshotVary headers (vary.map VaryField.name) := by
  induction vary with
  | nil => simp [varyMatches, cacheSnapshotVary]
  | cons field rest ih =>
    obtain ⟨name, values, present⟩ := field
    rw [varyMatches, List.all_cons, Bool.and_eq_true, ← varyMatches, ih]
    simp only [cacheSnapshotVary, List.map_cons, List.map_map, List.cons.injEq, varyField,
      VaryField.mk.injEq, true_and, Bool.and_eq_true, beq_iff_eq]
    constructor
    · rintro ⟨⟨hpresent, hvalues⟩, hrest⟩
      exact ⟨⟨hvalues.symm, hpresent.symm⟩, hrest⟩
    · rintro ⟨⟨hvalues, hpresent⟩, hrest⟩
      exact ⟨⟨hpresent.symm, hvalues.symm⟩, hrest⟩

/-! ### Keys and metadata -/

/-- `cacheKey`. -/
structure Key where
  method : Bytes := []
  host : Bytes := []
  target : Bytes := []
  originalURI : Bytes := []
  scheme : Bytes := []
  propagationFields : Bytes := []
  listener : Bytes := []
  tls : Bool := false
deriving DecidableEq

/-- The size of the texts of a key; `none` when they are over the limit. -/
def textsCost : ℤ → List Bytes → Option ℤ
  | size, [] => some size
  | size, text :: texts =>
    if len text > cacheKeyBytes - size then none else textsCost (size + len text) texts

/-- The names of a snapshot. -/
def namesCost : ℤ → List Bytes → Option ℤ
  | cost, [] => some cost
  | cost, name :: names =>
    if len name > cacheHeaderBytes then none else namesCost (cost + 64 + len name) names

def cacheMetadataCost (key : Key) (request : Header) (names : List Bytes) (response : Header) :
    Option ℤ := do
  let size ← textsCost 0 [key.method, key.host, key.target, key.originalURI, key.scheme,
    key.propagationFields, key.listener]
  let rq ← cacheHeaderCost request
  let rs ← cacheHeaderCost response
  if len names > cacheVaryTokenLimit then none
  else namesCost (size + rq + rs) names

theorem le_textsCost {size : ℤ} {texts : List Bytes} (h : textsCost size texts = some total) :
    size ≤ total := by
  induction texts generalizing size with
  | nil => exact le_of_eq (Option.some.inj h)
  | cons text texts ih =>
    obtain ⟨_, h⟩ := Option.ite_none_left_eq_some.1 h
    have hrest := ih h
    have hlen := len_nonneg text
    omega

theorem le_namesCost (h : namesCost cost names = some total) : cost ≤ total := by
  induction names generalizing cost with
  | nil => exact le_of_eq (Option.some.inj h)
  | cons name names ih =>
    obtain ⟨_, h⟩ := Option.ite_none_left_eq_some.1 h
    have hrest := ih h
    have hlen := len_nonneg name
    omega

/-- Metadata costs something. -/
theorem cacheMetadataCost_nonneg {key : Key} {request response : Header}
    (h : cacheMetadataCost key request names response = some cost) : 0 ≤ cost := by
  simp only [cacheMetadataCost, Option.bind_eq_bind, Option.bind_eq_some_iff] at h
  obtain ⟨size, hsize, rq, hrq, rs, hrs, h⟩ := h
  obtain ⟨_, h⟩ := Option.ite_none_left_eq_some.1 h
  have h1 := le_textsCost hsize
  have h2 := cacheHeaderCost_nonneg hrq
  have h3 := cacheHeaderCost_nonneg hrs
  have h4 := le_namesCost h
  omega

/-! ### Propagation policies -/

/-- What a request fixed of a `cacheProxyPolicy`: the fields its propagator may set.  The latch
`unsafe` is read anew at every use. -/
structure ProxyPolicy where
  fields : List Bytes

def ProxyPolicy.forbidsVaryField (p : ProxyPolicy) (name : Bytes) : Bool :=
  [lit "forwarded", lit "x-forwarded-for", lit "x-forwarded-host", lit "x-forwarded-proto"].contains
    name || p.fields.contains name

/-- `cacheProxyPolicy.allowsVary`, and `cacheEntry.allowedBy` for the names of an entry. -/
def allowsVary (policy : Option ProxyPolicy) (latched : Bool) (names : List Bytes) : Bool :=
  match policy with
  | none => true
  | some p => !latched && !names.any p.forbidsVaryField

end Statute.Cache
