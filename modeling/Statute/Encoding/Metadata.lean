import Statute.Cache.Freshness

/-!
# Metadata of an encoded response

What the encoders do to the header of a response: announcements of trailers a codec cannot forward are
dropped, and fields that describe the bytes before encoding are removed or weakened.

* `HeaderNameSet`: names up to case;
* `responseTrailerNames`, `stripResponseTrailer`: the trailers of a buffered response;
* `stripCompressionTrailers`, `prepareEncodedMetadata`: the header of an encoded one.
-/

namespace Statute.Encoding

open Statute.Base
open Statute.Cache (trimOf foldedKeys cacheHeaderValues cacheControlAllows trailerPrefix)

/-! ### Names up to case -/

abbrev HeaderNameSet := List Bytes

def HeaderNameSet.contains (s : HeaderNameSet) (name : Bytes) : Bool := List.contains s (toLower name)

def HeaderNameSet.removeFrom (s : HeaderNameSet) (h : Header) : Header := h.deleteWhere s.contains

def deleteHeaderFold (h : Header) (name : Bytes) : Header := h.deleteWhere fun key => equalFold key name

/-! ### Trailers -/

/-- The fields an encoder owns; they cannot be sent as trailers of an encoded body. -/
def compressionOwned : List Bytes :=
  [lit "content-length", lit "content-encoding", lit "content-range", lit "accept-ranges", lit "etag",
    lit "content-md5", lit "digest", lit "content-digest", lit "repr-digest"]

def compressionOwnedTrailer (name : Bytes) : Bool := compressionOwned.contains (toLower name)

/-- The names announced in the `Trailer` field, as `stripCompressionTrailers` reads them. -/
def announcedNames (h : Header) : List Bytes :=
  (cacheHeaderValues h (lit "Trailer")).1.flatMap fun line =>
    (split (ch ',') line).map (trimOf (lit " \t"))

def stripLateCompressionTrailers (h : Header) : Header :=
  h.deleteWhere fun name =>
    decide (trailerPrefix.length ≤ name.length) &&
      equalFold (name.take trailerPrefix.length) trailerPrefix &&
      compressionOwnedTrailer (name.drop trailerPrefix.length)

/-- `stripCompressionTrailers`: the header, and the announced names that were dropped. -/
def stripCompressionTrailers (h : Header) : Header × HeaderNameSet :=
  let announced := announcedNames h
  let dropped : HeaderNameSet := (announced.filter compressionOwnedTrailer).map toLower
  let keep := announced.filter fun name => !compressionOwnedTrailer name && name != []
  let h' := dropped.removeFrom h
  let h' :=
    if (cacheHeaderValues h (lit "Trailer")).2 then
      let h' := deleteHeaderFold h' (lit "Trailer")
      if keep ≠ [] then h'.set (lit "Trailer") ((lit ", ").intercalate keep) else h'
    else h'
  (stripLateCompressionTrailers h', dropped)

def trailerTokens (line : Bytes) : List Bytes := ((split (ch ',') line).map trimSpace).filter (· ≠ [])

def responseTrailerNames (h : Header) : HeaderNameSet :=
  h.entries.flatMap fun e =>
    (if equalFold e.1 (lit "Trailer") then (e.2.flatMap trailerTokens).map toLower else []) ++
      if hasPrefix e.1 trailerPrefix then [toLower e.1] else []

/-- One entry of the header without the announcements of a name. -/
def retainTokens (name : Bytes) (e : Bytes × List Bytes) : Option (Bytes × List Bytes) :=
  if equalFold e.1 (lit "Trailer") then
    let retained := (e.2.flatMap trailerTokens).filter fun token => !equalFold token name
    if retained = [] then none else some (e.1, retained)
  else some e

variable {name : Bytes}

theorem fst_retainTokens {e e' : Bytes × List Bytes} (h : retainTokens name e = some e') :
    e'.1 = e.1 := by
  unfold retainTokens at h
  split at h
  · dsimp only at h
    split at h
    · cases h
    · rw [← Option.some.inj h]
  · rw [← Option.some.inj h]

theorem keys_filterMap_retainTokens (name : Bytes) (entries : List (Bytes × List Bytes)) :
    ((entries.filterMap (retainTokens name)).map Prod.fst).Sublist (entries.map Prod.fst) := by
  induction entries with
  | nil => exact List.Sublist.refl _
  | cons e entries ih =>
    cases hretain : retainTokens name e with
    | none =>
      rw [List.filterMap_cons_none hretain]
      exact ih.cons e.1
    | some e' =>
      rw [List.filterMap_cons_some hretain, List.map_cons, List.map_cons, fst_retainTokens hretain]
      exact ih.cons_cons e.1

def stripResponseTrailer (h : Header) (name : Bytes) : Header where
  entries := (deleteHeaderFold h (trailerPrefix ++ name)).entries.filterMap (retainTokens name)
  nodup := (deleteHeaderFold h (trailerPrefix ++ name)).nodup.sublist (keys_filterMap_retainTokens name _)

/-! ### Fields of the bytes before encoding -/

/-- The fields `prepareEncodedMetadata` deletes. -/
def encodedMetadata : List Bytes :=
  [lit "Content-Length", lit "Content-Encoding", lit "Content-MD5", lit "Digest", lit "Content-Digest",
    lit "Repr-Digest", lit "Accept-Ranges"]

def prepareEncodedMetadata (h : Header) : Header :=
  let h := encodedMetadata.foldl deleteHeaderFold h
  match (cacheHeaderValues h (lit "ETag")).1 with
  | [tag] =>
    if hasPrefix tag [34] then (deleteHeaderFold h (lit "ETag")).set (lit "ETag") (lit "W/" ++ tag) else h
  | _ => h

/-! ### One field of a header -/

def fieldEntries (h : Header) (name : Bytes) : List (Bytes × List Bytes) :=
  h.entries.filter fun e => equalFold e.1 name

variable {h : Header}

theorem mem_fieldEntries {e : Bytes × List Bytes} :
    e ∈ fieldEntries h name ↔ e ∈ h.entries ∧ equalFold e.1 name = true := List.mem_filter

theorem lookup_fieldEntries {key : Bytes} (hkey : equalFold key name = true) :
    (fieldEntries h name).lookup key = h.lookup key := by
  have hfilter := Header.lookup_filter h.entries (fun k => !equalFold k name) key
  simp only [Bool.not_not, hkey, Bool.not_true, Bool.false_eq_true, if_false] at hfilter
  exact hfilter

theorem map_fst_fieldEntries (h : Header) (name : Bytes) :
    (fieldEntries h name).map Prod.fst = foldedKeys h name := by
  rw [fieldEntries, foldedKeys, List.filter_map]
  rfl

variable {h' : Header}

/-- What is read of a field depends on its entries alone. -/
theorem cacheHeaderValues_congr (hsame : fieldEntries h name = fieldEntries h' name) :
    cacheHeaderValues h name = cacheHeaderValues h' name := by
  have hkeys : foldedKeys h name = foldedKeys h' name := by
    rw [← map_fst_fieldEntries, ← map_fst_fieldEntries, hsame]
  unfold cacheHeaderValues
  simp only [hkeys, Prod.mk.injEq, and_true]
  refine List.flatMap_congr fun key hkey => ?_
  have hfold : equalFold key name = true := by
    exact (List.mem_filter.mp (mem_stableSort.mp hkey)).2
  rw [← lookup_fieldEntries hfold, ← lookup_fieldEntries hfold, hsame]

theorem cacheControlAllows_eq (h : Header) (forbidden : List Bytes) : cacheControlAllows h forbidden =
    (fieldEntries h (lit "Cache-Control")).all fun e =>
      e.2.all fun v => Statute.Cache.cacheControlFieldAllows v forbidden := by
  rw [fieldEntries, List.all_filter]
  rfl

theorem cacheControlAllows_congr {forbidden : List Bytes}
    (hsame : fieldEntries h (lit "Cache-Control") = fieldEntries h' (lit "Cache-Control")) :
    cacheControlAllows h forbidden = cacheControlAllows h' forbidden := by
  rw [cacheControlAllows_eq, cacheControlAllows_eq, hsame]

theorem get_congr (hname : equalFold (canonicalHeaderKey name) name = true)
    (hsame : fieldEntries h name = fieldEntries h' name) : h.get name = h'.get name := by
  rw [Header.get, Header.get, Header.values, Header.values, ← lookup_fieldEntries hname,
    ← lookup_fieldEntries hname, hsame]

/-- Deleting other keys leaves a field. -/
theorem fieldEntries_deleteWhere {p : Bytes → Bool}
    (hp : ∀ e ∈ h.entries, equalFold e.1 name = true → p e.1 = false) :
    fieldEntries (h.deleteWhere p) name = fieldEntries h name := by
  rw [fieldEntries, fieldEntries, Header.deleteWhere, List.filter_filter]
  refine List.filter_congr fun e he => ?_
  cases hfold : equalFold e.1 name with
  | false => rfl
  | true => rw [hp e he hfold]; rfl

/-- Deleting every spelling of a field removes it. -/
theorem fieldEntries_deleteWhere_nil {p : Bytes → Bool}
    (hp : ∀ key, equalFold key name = true → p key = true) :
    fieldEntries (h.deleteWhere p) name = [] := by
  rw [fieldEntries, Header.deleteWhere, List.filter_filter, List.filter_eq_nil_iff]
  intro e _
  cases hfold : equalFold e.1 name with
  | false => simp
  | true => simp [hp e.1 hfold]

/-- Setting another key leaves a field. -/
theorem fieldEntries_put {key : Bytes} {vs : List Bytes} (hkey : equalFold key name = false) :
    fieldEntries (h.put key vs) name = fieldEntries h name := by
  have hdelete : fieldEntries (h.deleteWhere (· == key)) name = fieldEntries h name := by
    refine fieldEntries_deleteWhere fun e _ hfold => ?_
    rw [beq_eq_false_iff_ne]
    intro heq
    rw [heq, hkey] at hfold
    cases hfold
  rw [← hdelete, fieldEntries, Header.put, List.filter_cons_of_neg (by simp [hkey])]
  rfl

variable {other : Bytes}

theorem fieldEntries_deleteHeaderFold (hother : toLower name ≠ toLower other) :
    fieldEntries (deleteHeaderFold h other) name = fieldEntries h name := by
  refine fieldEntries_deleteWhere fun e _ hfold => ?_
  rw [equalFold_iff] at hfold
  rw [← Bool.not_eq_true, equalFold_iff, hfold]
  exact hother

theorem fieldEntries_set {value : Bytes}
    (hother : equalFold (canonicalHeaderKey other) name = false) :
    fieldEntries (h.set other value) name = fieldEntries h name := fieldEntries_put hother

/-- Taking announcements out of the `Trailer` fields leaves the others. -/
theorem fieldEntries_stripResponseTrailer (hname : toLower name ≠ toLower (lit "Trailer"))
    (hother : toLower name ≠ toLower (trailerPrefix ++ other)) :
    fieldEntries (stripResponseTrailer h other) name = fieldEntries h name := by
  refine Eq.trans ?_ (fieldEntries_deleteHeaderFold hother)
  show ((deleteHeaderFold h (trailerPrefix ++ other)).entries.filterMap (retainTokens other)).filter _ =
    (deleteHeaderFold h (trailerPrefix ++ other)).entries.filter _
  generalize (deleteHeaderFold h (trailerPrefix ++ other)).entries = entries
  induction entries with
  | nil => rfl
  | cons e entries ih =>
    by_cases htrailer : equalFold e.1 (lit "Trailer") = true
    · have hfold : equalFold e.1 name = false := by
        rw [equalFold_iff] at htrailer
        rw [← Bool.not_eq_true, equalFold_iff, htrailer]
        exact fun heq => hname heq.symm
      rw [List.filter_cons_of_neg (by rw [hfold]; simp), ← ih]
      cases hretain : retainTokens other e with
      | none => rw [List.filterMap_cons_none hretain]
      | some e' =>
        rw [List.filterMap_cons_some hretain, List.filter_cons_of_neg]
        rw [fst_retainTokens hretain, hfold]
        simp
    · have hretain : retainTokens other e = some e := if_neg htrailer
      rw [List.filterMap_cons_some hretain, List.filter_cons, List.filter_cons, ih]

/-! ### Announced trailers -/

/-- A `Trailer` field of the header announces the name. -/
def announces (h : Header) (name : Bytes) : Bool :=
  (fieldEntries h (lit "Trailer")).any fun e =>
    (e.2.flatMap trailerTokens).any fun token => equalFold token name

theorem announces_congr (hsame : fieldEntries h (lit "Trailer") = fieldEntries h' (lit "Trailer"))
    (name : Bytes) : announces h name = announces h' name := by
  rw [announces, announces, hsame]

/-- A token is its own only token. -/
theorem trailerTokens_of_mem {line token : Bytes} (h : token ∈ trailerTokens line) :
    trailerTokens token = [token] := by
  obtain ⟨hmem, hne⟩ := List.mem_filter.mp h
  obtain ⟨piece, hpiece, rfl⟩ := List.mem_map.mp hmem
  have hcomma : ch ',' ∉ trimSpace piece := fun hc => not_mem_of_mem_split hpiece (mem_of_mem_trimSpace hc)
  rw [trailerTokens, split_of_not_mem hcomma, List.map_singleton, trimSpace_idem]
  exact List.filter_cons_of_pos hne

theorem flatMap_trailerTokens {tokens : List Bytes} (h : ∀ token ∈ tokens, ∃ line, token ∈ trailerTokens line) :
    tokens.flatMap trailerTokens = tokens := by
  induction tokens with
  | nil => rfl
  | cons token tokens ih =>
    obtain ⟨line, hline⟩ := h token List.mem_cons_self
    rw [List.flatMap_cons, trailerTokens_of_mem hline,
      ih fun t ht => h t (List.mem_cons_of_mem token ht)]
    rfl

/-- The tokens of one name are none of another's. -/
theorem any_filter_other (hname : toLower name ≠ toLower other) (tokens : List Bytes) :
    ((tokens.filter fun token => !equalFold token other).any fun token => equalFold token name) =
      tokens.any fun token => equalFold token name := by
  rw [List.any_filter]
  refine List.any_congr rfl fun token => ?_
  cases hfold : equalFold token name with
  | false => rw [Bool.and_false]
  | true =>
    have hnot : equalFold token other = false := by
      rw [equalFold_iff] at hfold
      rw [← Bool.not_eq_true, equalFold_iff, hfold]
      exact hname
    rw [hnot]
    rfl

/-- Taking one name out of the announcements leaves the others. -/
theorem announces_stripResponseTrailer (hname : toLower name ≠ toLower other)
    (hother : toLower (lit "Trailer") ≠ toLower (trailerPrefix ++ other)) :
    announces (stripResponseTrailer h other) name = announces h name := by
  refine Eq.trans ?_ (announces_congr (fieldEntries_deleteHeaderFold hother) name)
  unfold announces fieldEntries
  rw [List.any_filter, List.any_filter]
  show ((deleteHeaderFold h (trailerPrefix ++ other)).entries.filterMap (retainTokens other)).any _ = _
  generalize (deleteHeaderFold h (trailerPrefix ++ other)).entries = entries
  induction entries with
  | nil => rfl
  | cons e entries ih =>
    rw [List.any_cons, ← ih]
    by_cases htrailer : equalFold e.1 (lit "Trailer") = true
    · rw [htrailer, Bool.true_and, ← any_filter_other hname]
      by_cases hempty : ((e.2.flatMap trailerTokens).filter fun token => !equalFold token other) = []
      · have hretain : retainTokens other e = none := by
          rw [retainTokens, if_pos htrailer]
          exact if_pos hempty
        rw [List.filterMap_cons_none hretain, hempty]
        rfl
      · have hretain : retainTokens other e = some (e.1,
            (e.2.flatMap trailerTokens).filter fun token => !equalFold token other) := by
          rw [retainTokens, if_pos htrailer]
          exact if_neg hempty
        have hself : ((e.2.flatMap trailerTokens).filter fun token => !equalFold token other).flatMap
            trailerTokens = (e.2.flatMap trailerTokens).filter fun token => !equalFold token other := by
          refine flatMap_trailerTokens fun token htoken => ?_
          obtain ⟨line, -, hline⟩ := List.mem_flatMap.mp (List.mem_filter.mp htoken).1
          exact ⟨line, hline⟩
        rw [List.filterMap_cons_some hretain, List.any_cons, htrailer, Bool.true_and, hself]
    · have hretain : retainTokens other e = some e := if_neg htrailer
      rw [List.filterMap_cons_some hretain, List.any_cons]

theorem toLower_hasPrefix {s p : Bytes} (h : hasPrefix s p = true) :
    hasPrefix (toLower s) (toLower p) = true := by
  rw [hasPrefix_iff] at h ⊢
  obtain ⟨t, rfl⟩ := h
  exact ⟨toLower t, (toLower_append p t).symm⟩

/-- The trailers of a response are the announced names and the late ones. -/
theorem responseTrailerNames_contains (h : Header)
    (hname : hasPrefix (toLower name) (toLower trailerPrefix) = false) :
    (responseTrailerNames h).contains name = announces h name := by
  rw [Bool.eq_iff_iff]
  unfold HeaderNameSet.contains
  rw [List.contains_iff_mem, announces, List.any_eq_true]
  unfold responseTrailerNames
  constructor
  · intro hmem
    obtain ⟨e, he, hin⟩ := List.mem_flatMap.mp hmem
    rcases List.mem_append.mp hin with hin | hin
    · split at hin
      · rename_i htrailer
        obtain ⟨token, htoken, heq⟩ := List.mem_map.mp hin
        exact ⟨e, mem_fieldEntries.mpr ⟨he, htrailer⟩,
          List.any_eq_true.mpr ⟨token, htoken, (equalFold_iff _ _).mpr heq⟩⟩
      · exact absurd hin List.not_mem_nil
    · split at hin
      · rename_i hlate
        have hbad := toLower_hasPrefix hlate
        rw [← List.mem_singleton.mp hin, hname] at hbad
        cases hbad
      · exact absurd hin List.not_mem_nil
  · rintro ⟨e, he, htokens⟩
    obtain ⟨he, htrailer⟩ := mem_fieldEntries.mp he
    obtain ⟨token, htoken, hfold⟩ := List.any_eq_true.mp htokens
    refine List.mem_flatMap.mpr ⟨e, he, List.mem_append_left _ ?_⟩
    rw [if_pos htrailer]
    exact List.mem_map.mpr ⟨token, htoken, (equalFold_iff _ _).mp hfold⟩

end Statute.Encoding
