import Statute.Base.Bytes

/-!
# Header fields

`http.Header` as a finite map from field names to their values, each name once, together with the
canonical spelling of a name.  A Go map has no order, so what callers may use is `lookup`: every
operation is characterised by the lookups of its result.
-/

namespace Statute.Base

/-! ### Field names -/

/-- The upper-case form of one ASCII byte. -/
def upperByte (c : UInt8) : UInt8 := if 97 ≤ c ∧ c ≤ 122 then c - 32 else c

/-- A byte of an RFC 9110 token: a letter, a digit or one of fifteen marks. -/
def tokenByte (c : UInt8) : Bool :=
  (48 ≤ c && c ≤ 57) || (65 ≤ c && c ≤ 90) || (97 ≤ c && c ≤ 122) ||
    [33, 35, 36, 37, 38, 39, 42, 43, 45, 46, 94, 95, 96, 124, 126].contains c

/-- Upper case at the start and after a hyphen, lower case elsewhere. -/
def canonicalCase : Bool → Bytes → Bytes
  | _, [] => []
  | upper, c :: cs => (if upper then upperByte c else lowerByte c) :: canonicalCase (c == ch '-') cs

/-- `http.CanonicalHeaderKey`: a name that is not a token is left alone. -/
def canonicalHeaderKey (name : Bytes) : Bytes :=
  if name.all tokenByte then canonicalCase true name else name

def validHeaderFieldName (name : Bytes) : Bool := name != [] && name.all tokenByte

variable (c : UInt8)

theorem upperByte_idem : upperByte (upperByte c) = upperByte c := by
  unfold upperByte
  grind

theorem upperByte_eq_hyphen : (upperByte c == ch '-') = (c == ch '-') := by
  unfold upperByte
  grind [ch]

theorem lowerByte_eq_hyphen : (lowerByte c == ch '-') = (c == ch '-') := by
  unfold lowerByte
  grind [ch]

theorem tokenByte_upperByte : tokenByte (upperByte c) = tokenByte c := by
  unfold upperByte tokenByte
  grind

theorem tokenByte_lowerByte : tokenByte (lowerByte c) = tokenByte c := by
  unfold lowerByte tokenByte
  grind

theorem isASCII_of_validHeaderFieldName {name : Bytes} (h : validHeaderFieldName name = true) :
    isASCII name = true := by
  rw [validHeaderFieldName, Bool.and_eq_true, List.all_eq_true] at h
  refine List.all_eq_true.2 fun c hc => decide_eq_true ?_
  have htoken := h.2 c hc
  revert htoken
  exact forall_byte (p := fun c => tokenByte c = true → c < 128) (by decide +kernel) c

variable (upper : Bool) (name s : Bytes)

theorem canonicalCase_idem :
    canonicalCase upper (canonicalCase upper s) = canonicalCase upper s := by
  induction s generalizing upper with
  | nil => rfl
  | cons c cs ih =>
    cases upper with
    | true => simp [canonicalCase, upperByte_idem, upperByte_eq_hyphen, ih]
    | false => simp [canonicalCase, lowerByte_idem, lowerByte_eq_hyphen, ih]

theorem all_tokenByte_canonicalCase : (canonicalCase upper s).all tokenByte = s.all tokenByte := by
  induction s generalizing upper with
  | nil => rfl
  | cons c cs ih =>
    cases upper with
    | true => simp only [canonicalCase, if_true, List.all_cons, tokenByte_upperByte, ih]
    | false =>
      simp only [canonicalCase, Bool.false_eq_true, if_false, List.all_cons, tokenByte_lowerByte, ih]

@[simp] theorem canonicalHeaderKey_idem :
    canonicalHeaderKey (canonicalHeaderKey name) = canonicalHeaderKey name := by
  by_cases h : name.all tokenByte = true
  · simp only [canonicalHeaderKey, if_pos h, all_tokenByte_canonicalCase, canonicalCase_idem]
  · simp only [canonicalHeaderKey, if_neg h]

theorem lowerByte_upperByte : lowerByte (upperByte c) = lowerByte c := by
  unfold lowerByte upperByte
  grind

theorem toLower_canonicalCase : toLower (canonicalCase upper s) = toLower s := by
  induction s generalizing upper with
  | nil => rfl
  | cons c cs ih =>
    show lowerByte (if upper then upperByte c else lowerByte c) :: toLower (canonicalCase (c == ch '-') cs) = _
    rw [ih]
    cases upper with
    | true => exact congrArg (· :: toLower cs) (lowerByte_upperByte c)
    | false => exact congrArg (· :: toLower cs) (lowerByte_idem c)

/-- Names of one header key differ in case only. -/
theorem toLower_canonicalHeaderKey : toLower (canonicalHeaderKey name) = toLower name := by
  rw [canonicalHeaderKey]
  split
  · exact toLower_canonicalCase true name
  · rfl

/-! ### Header maps -/

/-- `http.Header`. -/
structure Header where
  entries : List (Bytes × List Bytes)
  nodup : (entries.map Prod.fst).Nodup
deriving DecidableEq

namespace Header

/-- `h[key]`, `none` when the key is absent. -/
def lookup (h : Header) (key : Bytes) : Option (List Bytes) := h.entries.lookup key

variable (h : Header) (p : Bytes → Bool) (key : Bytes)

def values (name : Bytes) : List Bytes :=
  (h.lookup (canonicalHeaderKey name)).getD []

/-- `Header.Get`: the first value. -/
def get (name : Bytes) : Bytes := (h.values name).headD []

/-- Delete every key that satisfies `p`, as a `range` loop with `delete` does. -/
def deleteWhere (p : Bytes → Bool) : Header where
  entries := h.entries.filter (fun e => !p e.1)
  nodup := h.nodup.sublist (List.filter_sublist.map _)

theorem not_mem_deleteWhere : key ∉ (h.deleteWhere (· == key)).entries.map Prod.fst := by
  rw [List.mem_map]
  rintro ⟨e, he, rfl⟩
  simp [deleteWhere] at he

def put (key : Bytes) (vs : List Bytes) : Header where
  entries := (key, vs) :: (h.deleteWhere (· == key)).entries
  nodup := by
    rw [List.map_cons, List.nodup_cons]
    exact ⟨not_mem_deleteWhere h key, (h.deleteWhere (· == key)).nodup⟩

def set (name value : Bytes) : Header := h.put (canonicalHeaderKey name) [value]

def add (name value : Bytes) : Header :=
  h.put (canonicalHeaderKey name) (h.values name ++ [value])

def del (name : Bytes) : Header := h.deleteWhere (· == canonicalHeaderKey name)

theorem lookup_filter (entries : List (Bytes × List Bytes)) (p : Bytes → Bool) (key : Bytes) :
    (entries.filter (fun e => !p e.1)).lookup key =
      if p key then none else entries.lookup key := by
  induction entries with
  | nil => simp
  | cons e rest ih =>
    obtain ⟨k, vs⟩ := e
    by_cases hk : key = k
    · subst hk
      cases hp : p key with
      | true => simp [hp, ih]
      | false => simp [hp]
    · have hbeq : (key == k) = false := beq_eq_false_iff_ne.2 hk
      cases hp : p k with
      | true => simp only [List.filter_cons, hp, Bool.not_true, Bool.false_eq_true, if_false, ih,
          List.lookup_cons, hbeq]
      | false => simp only [List.filter_cons, hp, Bool.not_false, if_true, ih, List.lookup_cons, hbeq]

@[simp] theorem lookup_deleteWhere :
    (h.deleteWhere p).lookup key = if p key then none else h.lookup key :=
  lookup_filter h.entries p key

@[simp] theorem lookup_put (vs : List Bytes) (other : Bytes) :
    (h.put key vs).lookup other = if other = key then some vs else h.lookup other := by
  by_cases hk : other = key
  · simp [put, lookup, hk]
  · have hbeq : (other == key) = false := beq_eq_false_iff_ne.2 hk
    have hrest := lookup_deleteWhere h (· == key) other
    rw [hbeq] at hrest
    simpa [put, lookup, List.lookup_cons, hbeq, hk] using hrest

theorem get_set_self (name value : Bytes) : (h.set name value).get name = value := by
  rw [get, values, set, lookup_put, if_pos rfl]
  rfl

end Header

end Statute.Base
