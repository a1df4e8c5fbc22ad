import Statute.Cache.Directives
import Mathlib.Data.Int.Order.Lemmas

/-!
# Freshness

The freshness arithmetic of `cache_freshness.go`.  Times are nanoseconds since the zero `time.Time`,
durations are `int64` nanoseconds, and `Time.Sub` saturates.

The arithmetic on durations is a parameter: `Int64Arith` says what an operation gives when its exact
result is an `int64`, and nothing about results outside; the two's complement one is
`Int64Arith.wrapping`.
-/

namespace Statute.Cache

open Statute.Base

/-! ### Durations and times -/

/-- `math.MaxInt64`. -/
def maxInt64 : ℤ := 9223372036854775807

/-- `math.MinInt64`. -/
def minInt64 : ℤ := -9223372036854775808

/-- `time.Second`, in nanoseconds. -/
def second : ℤ := 1000000000

/-- An arithmetic on `int64` values: what an operation with a given exact result returns. -/
structure Int64Arith where
  norm : ℤ → ℤ
  exact : ∀ x, minInt64 ≤ x → x ≤ maxInt64 → norm x = x

/-- Two's complement: results wrap around. -/
def Int64Arith.wrapping : Int64Arith where
  norm x := Int.bmod x 18446744073709551616
  exact x hmin hmax := by
    simp only [minInt64, maxInt64] at hmin hmax
    apply Int.bmod_eq_of_le_mul_two <;> omega

/-- `Time.Sub`: the difference, saturating. -/
def timeSub (a b : ℤ) : ℤ := max minInt64 (min maxInt64 (a - b))

/-- The parts of the standard library the freshness policy calls, and the arithmetic. -/
structure Env where
  arith : Int64Arith
  /-- `http.ParseTime` -/
  parseTime : Bytes → Option ℤ
  /-- `Time.Format` with `http.TimeFormat` -/
  formatTime : ℤ → Bytes

/-- `cacheFreshness`. -/
structure Freshness where
  received : ℤ := 0
  date : ℤ := 0
  initialAge : ℤ := 0
  expires : ℤ := 0
  valid : Bool := false
deriving DecidableEq

def minTime (a b : ℤ) : ℤ := if b < a then b else a

def cacheFreshnessAdd (A : Int64Arith) (a b : ℤ) : ℤ :=
  if a > A.norm (maxInt64 - b) then maxInt64 else A.norm (a + b)

/-! ### The digit parser -/

/-- The constant `ceiling` of `cacheFreshnessSeconds`: the whole seconds of the largest duration. -/
def ceiling : ℤ := maxInt64 / second

/-- One round of the loop. -/
def secondsStep (A : Int64Arith) (seconds n : ℤ) : ℤ :=
  if seconds > A.norm (ceiling - n) / 10 then A.norm (ceiling + 1)
  else A.norm (A.norm (seconds * 10) + n)

/-- The loop over the digits; `none` at a byte that is none. -/
def secondsLoop (A : Int64Arith) : ℤ → Bytes → Option ℤ
  | seconds, [] => some seconds
  | seconds, c :: rest =>
    match decDigit c with
    | none => none
    | some n => secondsLoop A (secondsStep A seconds n) rest

def cacheFreshnessSeconds (A : Int64Arith) (value : Bytes) : Option ℤ :=
  if value = [] then none
  else
    match secondsLoop A 0 value with
    | none => none
    | some seconds => if seconds > ceiling then some maxInt64 else some (A.norm (seconds * second))

/-! ### Reading a header -/

/-- `cacheFreshnessSingleHeader`: the value, whether the field is present, and whether it stands once
with one value. -/
def cacheFreshnessSingleHeader (h : Header) (name : Bytes) : Bytes × Bool × Bool :=
  h.entries.foldl (fun (value, present, valid) e =>
    if equalFold e.1 name = false then (value, present, valid)
    else
      match present, e.2 with
      | false, [v] => (v, true, valid)
      | _, _ => (value, true, false)) ([], false, true)

def cacheFreshnessDate (env : Env) (h : Header) (name : Bytes) (fallback : ℤ) : Option ℤ :=
  match cacheFreshnessSingleHeader h name with
  | (_, false, _) => some fallback
  | (_, true, false) => none
  | (value, true, true) => env.parseTime (trimSpace value)

/-- The `Age` of a header, with a reader for its digits. -/
def ageOf (seconds : Bytes → Option ℤ) (h : Header) : Option ℤ :=
  match cacheFreshnessSingleHeader h (lit "Age") with
  | (_, false, _) => some 0
  | (_, true, false) => none
  | (value, true, true) => seconds (trimSpace value)

def cacheFreshnessAge (A : Int64Arith) (h : Header) : Option ℤ := ageOf (cacheFreshnessSeconds A) h

/-- An argument without the quotes around it. -/
def unquoted (value : Bytes) : Bytes :=
  if value.length ≥ 2 ∧ value.head? = some (ch '"') ∧ value.getLast? = some (ch '"') then
    value.tail.dropLast
  else value

/-- The lifetime directive that counts: `s-maxage` before `max-age`. -/
def selectedDirective (h : Header) : Directive :=
  let (shared, ordinary) := cacheFreshnessDirectives h
  if shared.count ≠ 0 then shared else ordinary

/-- The lifetime of a header and whether the header states it, with a reader for digits and a
difference of times; `none` when the header is invalid. -/
def lifetimeOf (seconds : Bytes → Option ℤ) (sub : ℤ → ℤ → ℤ) (env : Env) (h : Header) (date : ℤ) :
    Option (ℤ × Bool) :=
  let selected := selectedDirective h
  if selected.count ≠ 0 then
    match seconds (unquoted selected.value) with
    | none => none
    | some lifetime => if selected.count = 1 then some (lifetime, true) else none
  else
    match cacheFreshnessDate env h (lit "Expires") date with
    | none => none
    | some expires =>
      some (max 0 (sub expires date), (cacheFreshnessSingleHeader h (lit "Expires")).2.1)

def cacheFreshnessLifetime (env : Env) (h : Header) (date : ℤ) : Option (ℤ × Bool) :=
  lifetimeOf (cacheFreshnessSeconds env.arith) timeSub env h date

def cacheFreshnessField (name : Bytes) : Bool :=
  equalFold name (lit "Cache-Control") || equalFold name (lit "Age") ||
    equalFold name (lit "Date") || equalFold name (lit "Expires")

/-- `http.TrailerPrefix`. -/
def trailerPrefix : Bytes := lit "Trailer:"

def cacheFreshnessTrailers (h : Header) : Bool :=
  h.entries.any (fun e =>
    (hasPrefix e.1 trailerPrefix && cacheFreshnessField (e.1.drop trailerPrefix.length)) ||
      (equalFold e.1 (lit "Trailer") &&
        e.2.any (fun v => (split (ch ',') v).any (fun name => cacheFreshnessField (trimSpace name)))))

def cacheResponseFreshness (env : Env) (h : Header) (requested received ttl : ℤ) : Freshness :=
  let f : Freshness := { received := received, expires := received + ttl }
  if cacheControlAllows h [] = false ∨ cacheFreshnessTrailers h = true then f
  else
    match cacheFreshnessDate env h (lit "Date") received, cacheFreshnessAge env.arith h with
    | some date, some age =>
      match cacheFreshnessLifetime env h date with
      | none => f
      | some (lifetime, explicit) =>
        let initialAge := max (max 0 (timeSub received date))
          (cacheFreshnessAdd env.arith age (max 0 (timeSub received requested)))
        { f with
          date := date
          initialAge := initialAge
          expires :=
            if explicit then minTime f.expires (received + env.arith.norm (lifetime - initialAge))
            else f.expires
          valid := true }
    | _, _ => f

def Freshness.constrain (f other : Freshness) : Freshness :=
  { f with
    valid := f.valid && other.valid
    initialAge := max f.initialAge other.initialAge
    expires := minTime f.expires other.expires }

/-- `cacheWriter.currentFreshness`: the policies of the header and of its projection together.  The
observation of the request is read as `usable`. -/
def currentFreshness (env : Env) (ops : List HeaderOp) (ttl : ℤ) (h : Header)
    (requested received : ℤ) (usable : Bool) : Freshness :=
  if usable = false ∨ cacheProjectionPreflight ops h = false ∨
      cacheResponseAllowsStorage h = false then {}
  else
    let projected := responseHeadersForCache ops h
    if cacheResponseAllowsStorage projected = false then {}
    else (cacheResponseFreshness env h requested received ttl).constrain
      (cacheResponseFreshness env projected requested received ttl)

/-- The age that `cacheFreshness.apply` sends, in whole seconds. -/
def Freshness.ageAt (A : Int64Arith) (f : Freshness) (now : ℤ) : ℤ :=
  cacheFreshnessAdd A f.initialAge (max 0 (timeSub now f.received)) / second

def Freshness.apply (env : Env) (f : Freshness) (h : Header) (now : ℤ) : Header :=
  let h := h.deleteWhere (fun name => equalFold name (lit "Age") || equalFold name (lit "Date"))
  (h.set (lit "Age") (decText (f.ageAt env.arith now).toNat)).set (lit "Date") (env.formatTime f.date)

end Statute.Cache
