import Statute.Cache.Fields

/-!
# Cache-Control directives

The two readers of a `Cache-Control` field: the syntax check of `cachecontrol.go`, which also refuses
fields with a forbidden directive, and the scan of `cache_freshness.go` for the lifetime directives.
Both loops shorten their text in every round; the fuel is its length.
-/

namespace Statute.Cache

open Statute.Base

/-- The bytes before the first of `marks`, and the rest: `strings.IndexAny` as it is used here. -/
def cutAny (marks s : Bytes) : Bytes × Bytes :=
  (s.takeWhile (fun c => !marks.contains c), s.dropWhile (fun c => !marks.contains c))

/-- A byte that a quoted string may not hold. -/
def quotedControl (c : UInt8) : Bool := (c < 32 && c != 9) || c == 127

/-- The loop of `consumeCacheArgument` after the opening quote. -/
def consumeQuoted : Bytes → Bytes × Bool
  | [] => ([], false)
  | c :: rest =>
    if c = ch '"' then (rest, true)
    else if c = ch '\\' then
      match rest with
      | [] => ([], false)
      | escaped :: rest => if quotedControl escaped then ([], false) else consumeQuoted rest
    else if quotedControl c then ([], false)
    else consumeQuoted rest

/-- `consumeCacheArgument`: what follows a token or a quoted string, and whether it is one. -/
def consumeCacheArgument (value : Bytes) : Bytes × Bool :=
  if hasPrefix value (lit "\"") then consumeQuoted (value.drop 1)
  else
    let (token, rest) := cutAny (lit ", \t") value
    (rest, validHeaderFieldName token)

/-- The loop of `cacheControlFieldAllows`. -/
def fieldAllows (forbidden : List Bytes) : ℕ → Bytes → Bool
  | 0, _ => false
  | fuel + 1, value =>
    let value := trimLeftOf (lit " \t,") value
    if value = [] then true
    else
      let (name, rest) := cutAny (lit "=, \t") value
      if !validHeaderFieldName name || forbidden.any (fun field => equalFold name field) then false
      else
        let rest := trimLeftOf (lit " \t") rest
        let (rest, ok) :=
          if hasPrefix rest (lit "=") then
            let (rest, ok) := consumeCacheArgument (trimLeftOf (lit " \t") (rest.drop 1))
            (trimLeftOf (lit " \t") rest, ok)
          else (rest, true)
        if !ok || (rest != [] && rest.head? != some (ch ',')) then false
        else fieldAllows forbidden fuel rest

def cacheControlFieldAllows (value : Bytes) (forbidden : List Bytes) : Bool :=
  fieldAllows forbidden (value.length + 1) value

def cacheControlAllows (h : Header) (forbidden : List Bytes) : Bool :=
  h.entries.all (fun e =>
    !equalFold e.1 (lit "Cache-Control") || e.2.all (fun v => cacheControlFieldAllows v forbidden))

def cacheControlAllowsStorage (h : Header) : Bool := cacheControlAllows h [lit "no-store"]

def cacheResponseAllowsStorage (h : Header) : Bool :=
  !(cacheHeaderValues h (lit "Set-Cookie")).2 &&
    cacheControlAllows h [lit "no-store", lit "private", lit "no-cache"]

/-! ### Lifetime directives -/

/-- `cacheFreshnessDirectiveNext`: the next directive, its argument, and the rest. -/
def cacheFreshnessDirectiveNext (value : Bytes) : Bytes × Bytes × Bytes :=
  let value := trimLeftOf (lit " \t,") value
  let (name, rest) := cutAny (lit "=, \t") value
  if rest = [] then (value, [], [])
  else
    let rest := trimLeftOf (lit " \t") rest
    let (argument, rest) :=
      if hasPrefix rest (lit "=") then
        let value := trimLeftOf (lit " \t") (rest.drop 1)
        let rest := (consumeCacheArgument value).1
        (value.take (value.length - rest.length), rest)
      else ([], rest)
    (name, argument, trimLeftOf (lit " \t,") rest)

/-- `cacheFreshnessDirective`: the last argument, and how often the directive stands. -/
structure Directive where
  value : Bytes := []
  count : ℕ := 0

/-- The directives `s-maxage` and `max-age` of one value. -/
def valueDirectives : ℕ → Directive × Directive → Bytes → Directive × Directive
  | 0, found, _ => found
  | fuel + 1, (shared, ordinary), value =>
    if value = [] then (shared, ordinary)
    else
      let (name, argument, rest) := cacheFreshnessDirectiveNext value
      let found :=
        if equalFold name (lit "s-maxage") then
          ({ value := argument, count := shared.count + 1 }, ordinary)
        else if equalFold name (lit "max-age") then
          (shared, { value := argument, count := ordinary.count + 1 })
        else (shared, ordinary)
      valueDirectives fuel found rest

def cacheFreshnessDirectives (h : Header) : Directive × Directive :=
  (cacheHeaderValues h (lit "Cache-Control")).1.foldl
    (fun found value => valueDirectives (value.length + 1) found value) ({}, {})

/-! ### The fuel is enough -/

theorem length_trimLeftOf_le (cutset s : Bytes) : (trimLeftOf cutset s).length ≤ s.length :=
  (List.dropWhile_suffix _).length_le

theorem length_consumeQuoted_le (s : Bytes) : (consumeQuoted s).1.length ≤ s.length := by
  fun_induction consumeQuoted s <;> simp_all <;> omega

theorem length_cutAny (marks s : Bytes) :
    (cutAny marks s).1.length + (cutAny marks s).2.length = s.length := by
  simp only [cutAny, ← List.length_append, List.takeWhile_append_dropWhile]

theorem length_consumeCacheArgument_le (s : Bytes) : (consumeCacheArgument s).1.length ≤ s.length := by
  unfold consumeCacheArgument
  split
  · exact le_trans (length_consumeQuoted_le _) (by simp)
  · have := length_cutAny (lit ", \t") s
    simp only
    omega

/-- More fuel does not change the scan. -/
theorem fieldAllows_fuel (forbidden : List Bytes) {n m : ℕ} {value : Bytes} (hn : value.length < n)
    (hm : value.length < m) : fieldAllows forbidden n value = fieldAllows forbidden m value := by
  induction n generalizing m value with
  | zero => omega
  | succ n ih =>
    cases m with
    | zero => omega
    | succ m =>
      simp only [fieldAllows]
      have htrim := length_trimLeftOf_le (lit " \t,") value
      generalize trimLeftOf (lit " \t,") value = v at *
      split
      · rfl
      · have hcut := length_cutAny (lit "=, \t") v
        generalize cutAny (lit "=, \t") v = c at *
        obtain ⟨name, rest⟩ := c
        simp only at hcut ⊢
        split
        · rfl
        · rename_i hname
          have hpos : 0 < name.length := by
            rw [List.length_pos_iff]
            rintro rfl
            simp [validHeaderFieldName] at hname
          have hrest := length_trimLeftOf_le (lit " \t") rest
          generalize trimLeftOf (lit " \t") rest = rest' at *
          have harg := length_consumeCacheArgument_le (trimLeftOf (lit " \t") (rest'.drop 1))
          have htail := length_trimLeftOf_le (lit " \t") (rest'.drop 1)
          have hlast := length_trimLeftOf_le (lit " \t")
            (consumeCacheArgument (trimLeftOf (lit " \t") (rest'.drop 1))).1
          have hdrop : (rest'.drop 1).length ≤ rest'.length := by simp
          by_cases hequals : hasPrefix rest' (lit "=") = true
          · simp only [if_pos hequals]
            split
            · rfl
            · exact ih (by omega) (by omega)
          · simp only [if_neg hequals]
            split
            · rfl
            · exact ih (by omega) (by omega)

end Statute.Cache
