import Statute.Precondition.EntityTag

/-!
# Read preconditions

`Status` of `internal/httpprecondition`: the four conditional fields of a read, evaluated against the
header of the selected representation.

* `status`: the code;
* `Conditions.outcome`: the order of evaluation of section 13.2.2 of RFC 9110, over what the fields
  mean by the grammar of their tags;
* `read_preconditions`: the code computes the outcome.
-/

namespace Statute.Precondition

open Statute.Base

/-! ### The code -/

/-- `http.ParseTime`, which has no empty date. -/
structure DateParser where
  parse : Bytes → Option ℤ
  empty : parse [] = none

/-- The lines of a field as one value. -/
def joinLines (lines : List Bytes) : Bytes := (lit ",").intercalate lines

/-- `field`: the lines under every spelling of a name, joined, and whether there is one. -/
def field (h : Header) (wanted : Bytes) : Bytes × Bool :=
  let found := h.entries.filter fun e => equalFold e.1 wanted
  (joinLines (found.flatMap Prod.snd), !found.isEmpty)

def modifiedAfter (dates : DateParser) (selected request : Header) (condition : Bytes) : Bool :=
  match dates.parse (field selected (lit "Last-Modified")).1, dates.parse (field request condition).1 with
  | some modified, some since => decide (since < modified)
  | _, _ => false

def unmodifiedSince (dates : DateParser) (selected request : Header) : Bool :=
  match dates.parse (field selected (lit "Last-Modified")).1,
    dates.parse (field request (lit "If-Modified-Since")).1 with
  | some modified, some since => !decide (since < modified)
  | _, _ => false

/-- The second half of `Status`. -/
def noneMatchStatus (dates : DateParser) (request selected : Header) (current : Bytes) : ℕ :=
  match field request (lit "If-None-Match") with
  | (value, true) =>
    match matchTags value current true with
    | (_, false) => 400
    | (true, true) => 304
    | (false, true) => 0
  | (_, false) => if unmodifiedSince dates selected request then 304 else 0

/-- `Status`: zero to deliver the representation, or the status to send instead. -/
def status (dates : DateParser) (request selected : Header) : ℕ :=
  let current := (field selected (lit "ETag")).1
  match field request (lit "If-Match") with
  | (value, true) =>
    match matchTags value current false with
    | (_, false) => 400
    | (false, true) => 412
    | (true, true) => noneMatchStatus dates request selected current
  | (_, false) =>
    if modifiedAfter dates selected request (lit "If-Unmodified-Since") then 412
    else noneMatchStatus dates request selected current

/-! ### The order of evaluation -/

/-- What a list of entity tags says about the current one. -/
inductive TagResult where
  | malformed
  | agrees
  | differs

open Classical in
/-- A list of tags, by its grammar. -/
noncomputable def tagResult (value current : Bytes) (weak : Bool) : TagResult :=
  if ¬ ValidTags value then .malformed
  else if TagsMatch value current weak then .agrees else .differs

/-- The conditions of a read; a field that is absent, and a date that is none, is `none`. -/
structure Conditions where
  ifMatch : Option TagResult
  ifUnmodifiedSince : Option ℤ
  ifNoneMatch : Option TagResult
  ifModifiedSince : Option ℤ
  lastModified : Option ℤ

namespace Conditions

/-- Steps 1 and 2: `If-Match`, or else `If-Unmodified-Since`. -/
def lostUpdate (c : Conditions) : Option ℕ :=
  match c.ifMatch with
  | some .malformed => some 400
  | some .differs => some 412
  | some .agrees => none
  | none =>
    match c.lastModified, c.ifUnmodifiedSince with
    | some modified, some since => if since < modified then some 412 else none
    | _, _ => none

/-- Steps 3 and 4: `If-None-Match`, or else `If-Modified-Since`. -/
def unchanged (c : Conditions) : Option ℕ :=
  match c.ifNoneMatch with
  | some .malformed => some 400
  | some .agrees => some 304
  | some .differs => none
  | none =>
    match c.lastModified, c.ifModifiedSince with
    | some modified, some since => if modified ≤ since then some 304 else none
    | _, _ => none

/-- The status to send, zero for the representation itself. -/
def outcome (c : Conditions) : ℕ := (c.lostUpdate.or c.unchanged).getD 0

end Conditions

def fieldLines (h : Header) (name : Bytes) : Option (List Bytes) :=
  (h.entries.find? fun e => equalFold e.1 name).map Prod.snd

/-- The value of a field, empty if it is absent. -/
def fieldValue (h : Header) (name : Bytes) : Bytes := joinLines ((fieldLines h name).getD [])

/-- The conditions of a request, against the header of the selected representation. -/
noncomputable def conditions (dates : DateParser) (request selected : Header) : Conditions where
  ifMatch := (fieldLines request (lit "If-Match")).map fun lines =>
    tagResult (joinLines lines) (fieldValue selected (lit "ETag")) false
  ifUnmodifiedSince := (fieldLines request (lit "If-Unmodified-Since")).bind fun lines =>
    dates.parse (joinLines lines)
  ifNoneMatch := (fieldLines request (lit "If-None-Match")).map fun lines =>
    tagResult (joinLines lines) (fieldValue selected (lit "ETag")) true
  ifModifiedSince := (fieldLines request (lit "If-Modified-Since")).bind fun lines =>
    dates.parse (joinLines lines)
  lastModified := (fieldLines selected (lit "Last-Modified")).bind fun lines =>
    dates.parse (joinLines lines)

def OneSpelling (h : Header) : Prop :=
  ∀ a ∈ h.entries, ∀ b ∈ h.entries, equalFold a.1 b.1 = true → a.1 = b.1

/-! ### Fields -/

/-- One spelling leaves at most one entry. -/
theorem filter_of_oneSpelling {h : Header} (hone : OneSpelling h) (name : Bytes) :
    h.entries.filter (fun e => equalFold e.1 name) = (h.entries.find? fun e => equalFold e.1 name).toList := by
  have hsame : ∀ a ∈ h.entries.filter (fun e => equalFold e.1 name),
      ∀ b ∈ h.entries.filter (fun e => equalFold e.1 name), a.1 = b.1 := by
    intro a ha b hb
    obtain ⟨ha, hafold⟩ := List.mem_filter.mp ha
    obtain ⟨hb, hbfold⟩ := List.mem_filter.mp hb
    rw [equalFold_iff] at hafold hbfold
    exact hone a ha b hb ((equalFold_iff _ _).mpr (hafold.trans hbfold.symm))
  have hnodup : ((h.entries.filter fun e => equalFold e.1 name).map Prod.fst).Nodup :=
    h.nodup.sublist (List.filter_sublist.map _)
  rw [← List.head?_filter]
  cases hfilter : h.entries.filter fun e => equalFold e.1 name with
  | nil => rfl
  | cons e rest =>
    cases rest with
    | nil => rfl
    | cons f rest =>
      rw [hfilter] at hsame hnodup
      rw [List.map_cons, List.nodup_cons] at hnodup
      refine absurd ?_ hnodup.1
      rw [hsame e List.mem_cons_self f (List.mem_cons_of_mem e List.mem_cons_self)]
      exact List.mem_map_of_mem List.mem_cons_self

/-- `field` reads the lines of the field. -/
theorem field_eq {h : Header} (hone : OneSpelling h) (name : Bytes) :
    field h name = (fieldValue h name, (fieldLines h name).isSome) := by
  unfold field fieldValue fieldLines
  rw [filter_of_oneSpelling hone]
  cases h.entries.find? fun e => equalFold e.1 name with
  | none => rfl
  | some e => simp

variable (dates : DateParser)

/-- The date of a field. -/
theorem parse_fieldValue (h : Header) (name : Bytes) :
    dates.parse (fieldValue h name) = (fieldLines h name).bind fun lines => dates.parse (joinLines lines) := by
  unfold fieldValue
  cases fieldLines h name with
  | none => exact dates.empty
  | some lines => rfl

/-- A tag field that is present, by what `matchTags` reports. -/
theorem tagResult_eq (value current : Bytes) (weak : Bool) : tagResult value current weak =
    match matchTags value current weak with
    | (_, false) => .malformed
    | (true, true) => .agrees
    | (false, true) => .differs := by
  have hvalid := matchTags_valid value current weak
  have hmatch := matchTags_match value current weak
  unfold tagResult
  cases hresult : matchTags value current weak with
  | mk matched valid =>
    rw [hresult] at hvalid hmatch
    cases valid with
    | false =>
      rw [if_pos fun hv => absurd (hvalid.mpr hv) (by simp)]
    | true =>
      rw [if_neg (not_not.mpr (hvalid.mp rfl))]
      cases matched with
      | false => rw [if_neg fun hm => absurd (hmatch.mpr hm) (by simp)]
      | true => rw [if_pos (hmatch.mp rfl)]

/-! ### The status -/

theorem noneMatchStatus_eq {request selected : Header} (hrequest : OneSpelling request)
    (hselected : OneSpelling selected) :
    noneMatchStatus dates request selected (fieldValue selected (lit "ETag")) =
      ((conditions dates request selected).unchanged).getD 0 := by
  unfold noneMatchStatus Conditions.unchanged conditions unmodifiedSince
  simp only [field_eq hrequest, field_eq hselected, parse_fieldValue]
  cases hlines : fieldLines request (lit "If-None-Match") with
  | some lines =>
    simp only [fieldValue, hlines, Option.isSome_some, Option.map_some, Option.getD_some, tagResult_eq]
    split <;> rfl
  | none =>
    simp only [Option.isSome_none, Option.map_none]
    generalize (fieldLines selected (lit "Last-Modified")).bind _ = modified
    generalize (fieldLines request (lit "If-Modified-Since")).bind _ = since
    cases modified with
    | none => rfl
    | some modified =>
      cases since with
      | none => rfl
      | some since =>
        by_cases hle : modified ≤ since
        · simp [hle, not_lt.mpr hle]
        · simp [hle, not_le.mp hle]

/-- The whole of `Status`. -/
theorem status_eq {request selected : Header} (hrequest : OneSpelling request)
    (hselected : OneSpelling selected) :
    status dates request selected = (conditions dates request selected).outcome := by
  have hsecond := noneMatchStatus_eq dates hrequest hselected
  unfold status Conditions.outcome
  simp only [field_eq hselected (lit "ETag"), field_eq hrequest (lit "If-Match")]
  cases hlines : fieldLines request (lit "If-Match") with
  | some lines =>
    have hcondition : (conditions dates request selected).ifMatch =
        some (tagResult (joinLines lines) (fieldValue selected (lit "ETag")) false) := by
      simp only [conditions, hlines, Option.map_some]
    have hvalue : fieldValue request (lit "If-Match") = joinLines lines := by
      rw [fieldValue, hlines, Option.getD_some]
    obtain ⟨matched, valid, hresult⟩ : ∃ matched valid,
        matchTags (joinLines lines) (fieldValue selected (lit "ETag")) false = (matched, valid) := ⟨_, _, rfl⟩
    simp only [Conditions.lostUpdate, hcondition, tagResult_eq, Option.isSome_some, hvalue, hresult]
    cases valid with
    | false => rfl
    | true =>
      cases matched with
      | false => rfl
      | true => exact hsecond
  | none =>
    have hcondition : (conditions dates request selected).ifMatch = none := by
      simp only [conditions, hlines, Option.map_none]
    simp only [Conditions.lostUpdate, hcondition, Option.isSome_none, modifiedAfter, field_eq hselected,
      field_eq hrequest, parse_fieldValue]
    rw [hsecond]
    have hmodified : ((fieldLines selected (lit "Last-Modified")).bind fun lines =>
        dates.parse (joinLines lines)) = (conditions dates request selected).lastModified := rfl
    have hsince : ((fieldLines request (lit "If-Unmodified-Since")).bind fun lines =>
        dates.parse (joinLines lines)) = (conditions dates request selected).ifUnmodifiedSince := rfl
    rw [hmodified, hsince]
    generalize (conditions dates request selected).lastModified = modified
    generalize (conditions dates request selected).ifUnmodifiedSince = since
    cases modified with
    | none => rfl
    | some modified =>
      cases since with
      | none => rfl
      | some since =>
        by_cases hlt : since < modified
        · simp [hlt]
        · simp [hlt]

/-- **Read preconditions.**  `matchTags` accepts exactly `*` and the comma lists with an entity tag, and
matches exactly when it is `*` or has a member that agrees with the single current tag; and `Status` is
the outcome of the four conditions in the order of section 13.2.2. -/
theorem read_preconditions (dates : DateParser) (request selected : Header)
    (hrequest : OneSpelling request) (hselected : OneSpelling selected) :
    (∀ (lines : List Bytes) (current : Bytes) (weak : Bool),
      ((matchTags (joinLines lines) current weak).2 = true ↔ ValidTags (joinLines lines)) ∧
      ((matchTags (joinLines lines) current weak).2 = true →
        ((matchTags (joinLines lines) current weak).1 = true ↔ TagsMatch (joinLines lines) current weak))) ∧
    status dates request selected = (conditions dates request selected).outcome :=
  ⟨fun lines current weak => ⟨matchTags_valid (joinLines lines) current weak,
    fun _ => matchTags_match (joinLines lines) current weak⟩, status_eq dates hrequest hselected⟩

/-- The request asks for a change since the tag `"a,b"`, in a list with an empty member. -/
def revalidation : Header := ⟨[(lit "If-None-Match", [lit ", W/\x22a,b\x22"])], by decide⟩

/-- The representation has that tag. -/
def tagged : Header := ⟨[(lit "ETag", [lit "\x22a,b\x22"])], by decide⟩

theorem read_preconditions_unchanged :
    OneSpelling revalidation ∧ OneSpelling tagged ∧ status ⟨fun _ => none, rfl⟩ revalidation tagged = 304 ∧
    status ⟨fun _ => none, rfl⟩ revalidation tagged =
      (conditions ⟨fun _ => none, rfl⟩ revalidation tagged).outcome := by
  have hone : ∀ e : Bytes × List Bytes, ∀ h : Header, h.entries = [e] → OneSpelling h := by
    intro e h hentries a ha b hb _
    rw [hentries] at ha hb
    rw [List.mem_singleton.mp ha, List.mem_singleton.mp hb]
  exact ⟨hone _ revalidation rfl, hone _ tagged rfl, by decide,
    (read_preconditions _ revalidation tagged (hone _ revalidation rfl) (hone _ tagged rfl)).2⟩

end Statute.Precondition
