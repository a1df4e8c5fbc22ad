import Statute.Encoding.Writer

/-!
# The strength of a validator

`ETag` hashes a buffered response before an outer `Compress` or `EncodeResponse` sees it, so it asks that
encoder beforehand whether the body will be encoded, and weakens the validator if so.  The answer is
computed from the buffered header.  The encoder decides later, from the header that is replayed to it:
without the fields announced as trailers, and with a type it may sniff by a rule of its own.  Between `ETag`
and `EncodeResponse` stands a `committedHeaderWriter`, which hands the trailers on when the handler returns,
if the header that was published still announces them.

* `Outer`: the two encoders, with what they predict and what they deliver;
* `lost`: the fields that `EncodeResponse` no longer sees when it decides;
* `Outer.Consistent`: the fields of the buffered header that make the two decisions agree;
* `etag_strength`: the prediction is right exactly then.
-/

namespace Statute.Encoding

open Statute.Base
open Statute.Cache (trimOf cacheHeaderValues cacheControlAllows trailerPrefix)

/-! ### `Compress` -/

/-- The fields `stripUnacceptableRepresentation` deletes. -/
def representationMetadata : List Bytes :=
  [lit "Content-Type", lit "Content-Length", lit "Content-Encoding", lit "Content-Language",
    lit "Content-Location", lit "Content-Disposition", lit "Content-Range", lit "Accept-Ranges", lit "ETag",
    lit "Last-Modified", lit "Content-MD5", lit "Digest", lit "Content-Digest", lit "Repr-Digest",
    lit "Transfer-Encoding", lit "Trailer"]

def stripUnacceptableRepresentation (h : Header) : Header × HeaderNameSet :=
  let dropped : HeaderNameSet := (announcedNames h).map toLower
  let h := dropped.removeFrom h
  let h := h.deleteWhere fun name =>
    decide (trailerPrefix.length ≤ name.length) && equalFold (name.take trailerPrefix.length) trailerPrefix
  let h := representationMetadata.foldl deleteHeaderFold h
  (h.set (lit "Content-Length") (lit "0"), dropped)

/-- `compressResponseWriter`. -/
structure CompressWriter where
  negotiation : Negotiator
  header : Header
  status : ℕ := 0
  coding : Bytes := []
  head : Bool := false
  multiplexed : Bool := false
  rejected : Bool := false
  /-- a coding was applied -/
  encoding : Bool := false
  droppedTrailers : HeaderNameSet := []
  /-- the statuses and headers the underlying writer was given -/
  sent : List (ℕ × Header) := []
  /-- the bytes handed to the codec -/
  encoded : Bytes := []
  /-- the bytes handed to the underlying writer -/
  plain : Bytes := []

namespace CompressWriter

def bodyless (w : CompressWriter) : Bool :=
  w.status == 101 || w.status == 204 || w.status == 205 || w.status == 304

def startEncoding (w : CompressWriter) : CompressWriter :=
  if w.bodyless then w
  else
    match w.negotiation.selectCoding w.header w.status with
    | (_, false) =>
      { w with
        rejected := true
        status := if w.status < 400 then 406 else w.status
        header := (stripUnacceptableRepresentation w.header).1
        droppedTrailers := (stripUnacceptableRepresentation w.header).2 }
    | (coding, true) =>
      if coding = [] then w
      else
        { w with
          coding := coding
          encoding := true
          droppedTrailers := (stripCompressionTrailers w.header).2
          header := EncodingWriter.encodedHeader coding w.header }

def writeHeader (w : CompressWriter) (code : ℕ) : CompressWriter :=
  if code = 101 ∧ w.multiplexed = true then w
  else if w.status ≠ 0 then w
  else if code ≥ 200 ∨ code = 101 then
    let w := { w with status := code }.startEncoding
    { w with sent := w.sent ++ [(w.status, w.header)] }
  else { w with sent := w.sent ++ [(code, w.header)] }

/-- `compressResponseWriter.Write`; a body that is not allowed is refused. -/
def write (w : CompressWriter) (data : Bytes) : CompressWriter :=
  let w := if w.status = 0 then w.writeHeader 200 else w
  if w.bodyless then w
  else if w.head || w.rejected then w
  else if w.encoding then { w with encoded := w.encoded ++ data }
  else { w with plain := w.plain ++ data }

end CompressWriter

/-! ### `ETag` -/

def completeETagContentType (mt : MediaTypes) (h : Header) (body : Bytes) : Header :=
  if (cacheHeaderValues h (lit "Content-Type")).2 = false ∧
      (cacheHeaderValues h (lit "Content-Encoding")).2 = false ∧ body ≠ [] then
    h.set (lit "Content-Type") (mt.detectContentType body)
  else h

def setETagMetadata (h : Header) (body etag : Bytes) : Header :=
  let h := deleteHeaderFold h (lit "ETag")
  let h := deleteHeaderFold h (lit "Content-Length")
  let h := stripResponseTrailer h (lit "ETag")
  let h := stripResponseTrailer h (lit "Content-Length")
  let h := h.set (lit "ETag") etag
  if responseTrailerNames h = [] then h.set (lit "Content-Length") (decText body.length) else h

/-- The header `responseBuffer.replay` commits, over an empty one. -/
def replayHeader (h : Header) : Header :=
  let late := (h.entries.filter fun e => hasPrefix e.1 trailerPrefix).map Prod.fst
  late.foldl (fun h name => h.put name []) ((responseTrailerNames h).removeFrom h)

/-- The trailers `responseBuffer.replay` copies back after the body, over the header of the writer. -/
def copyTrailers (h header : Header) : Header :=
  (h.entries.filter fun e => (responseTrailerNames h).contains e.1).foldr (fun e h => h.put e.1 e.2) header

/-- `committedHeaderWriter.finish`: when the handler returns, the trailers that the published header announces
are taken from the header of the handler. -/
def finishCommitted (published header : Header) : Header :=
  let names := responseTrailerNames published
  (header.entries.filter fun e => names.contains e.1 || hasPrefix e.1 trailerPrefix).foldr
    (fun e h => h.put e.1 e.2) (names.removeFrom published)

/-- What becomes of a body. -/
inductive Delivery where
  | plain
  | encoded
  | rejected
deriving DecidableEq

/-- The encoder around `ETag`. -/
inductive Outer where
  | compress (n : Negotiator) (multiplexed : Bool)
  | encodeResponse (policy : EncodingPolicy) (hpolicy : 0 < policy.minimumBytes) (coding : Bytes)
    (hcoding : coding ≠ []) (multiplexed : Bool)

namespace Outer

def selectETagEncoding (mt : MediaTypes) : Outer → Header → Bytes → Bytes × Bool
  | .compress n _, h, _ => n.selectCoding h 200
  | .encodeResponse policy _ coding _ _, h, body =>
    if body.length < policy.minimumBytes ∨ responseEncodingEligible mt h 200 policy = false then ([], true)
    else (coding, true)

/-- How the encoder delivers a response of status 200 that is replayed to it from a buffer. -/
def deliver (mt : MediaTypes) : Outer → Header → Bytes → Delivery
  | .compress n multiplexed, h, body =>
    let w := (CompressWriter.writeHeader
      { negotiation := n, header := replayHeader h, multiplexed := multiplexed } 200).write body
    if w.rejected then .rejected else if w.encoding then .encoded else .plain
  | .encodeResponse policy _ coding _ multiplexed, h, body =>
    -- the status publishes the header; the writer may still hold the body when the trailers come back
    let w := (EncodingWriter.writeHeader { header := replayHeader h, multiplexed := multiplexed } 200).write
      mt policy coding body
    let w := { w with header := finishCommitted w.header (copyTrailers h (replayHeader h)) }
    if (w.finish mt policy coding).encoding then .encoded else .plain

end Outer

/-- The validator `etagHandlerWithLimit` generates; `digest` is the text of the hash. -/
def validator (digest : Bytes → Bytes) (coding body : Bytes) : Bytes :=
  (if coding ≠ [] then lit "W/" else []) ++ [34] ++ digest body ++ [34]

/-- The coding `ETag` is told, for a buffered header. -/
def predictedCoding (mt : MediaTypes) (outer : Outer) (h : Header) (body : Bytes) : Bytes :=
  (outer.selectETagEncoding mt (completeETagContentType mt h body) body).1

/-- What the encoder does with the response `ETag` replays. -/
def delivered (mt : MediaTypes) (digest : Bytes → Bytes) (outer : Outer) (h : Header) (body : Bytes) :
    Delivery :=
  outer.deliver mt (setETagMetadata (completeETagContentType mt h body) body
    (validator digest (predictedCoding mt outer h body) body)) body

/-! ### What the encoder sees -/

/-- The header that is replayed with a validator. -/
def replayed (h : Header) (body etag : Bytes) : Header := replayHeader (setETagMetadata h body etag)

/-- The header with the trailers back. -/
def returned (h : Header) (body etag : Bytes) : Header :=
  finishCommitted (replayed h body etag) (copyTrailers (setETagMetadata h body etag) (replayed h body etag))

def withoutTrailers (h : Header) : Header := h.deleteWhere (announces h)

/-- The field is none that `ETag` sets, and no trailer field. -/
def ordinaryField (name : Bytes) : Bool :=
  toLower name != lit "etag" && toLower name != lit "content-length" && toLower name != lit "trailer" &&
    !hasPrefix (toLower name) (lit "trailer:")

theorem announces_of_equalFold {h : Header} {key name : Bytes} (hfold : equalFold key name = true) :
    announces h key = announces h name := by
  rw [equalFold_iff] at hfold
  unfold announces equalFold
  rw [hfold]

/-- Fields that are announced go, the others stay. -/
theorem fieldEntries_of_announces {h : Header} {p : Bytes → Bool} {name : Bytes}
    (hp : ∀ key, equalFold key name = true → p key = announces h name) :
    fieldEntries (h.deleteWhere p) name = if announces h name then [] else fieldEntries h name := by
  by_cases hannounced : announces h name = true
  · rw [if_pos hannounced]
    refine fieldEntries_deleteWhere_nil fun key hkey => ?_
    rw [hp key hkey, hannounced]
  · rw [if_neg hannounced]
    refine fieldEntries_deleteWhere fun e _ hfold => ?_
    rw [hp e.1 hfold]
    exact Bool.not_eq_true _ ▸ hannounced

theorem fieldEntries_withoutTrailers (h : Header) (name : Bytes) :
    fieldEntries (withoutTrailers h) name = if announces h name then [] else fieldEntries h name :=
  fieldEntries_of_announces fun _ hkey => announces_of_equalFold hkey

section Early

variable {name : Bytes} (hearly : hasPrefix (toLower name) (lit "trailer:") = false)
include hearly

theorem equalFold_late {key : Bytes} (hkey : hasPrefix key trailerPrefix = true) : equalFold key name = false := by
  rw [← Bool.not_eq_true, equalFold_iff]
  intro heq
  have hlate := toLower_hasPrefix hkey
  rw [show toLower trailerPrefix = lit "trailer:" by decide, heq, hearly] at hlate
  cases hlate

theorem fieldEntries_foldl_put {late : List Bytes} (hlate : ∀ key ∈ late, hasPrefix key trailerPrefix = true)
    (h : Header) : fieldEntries (late.foldl (fun h key => h.put key []) h) name = fieldEntries h name := by
  induction late generalizing h with
  | nil => rfl
  | cons key late ih =>
    rw [List.foldl_cons, ih (fun k hk => hlate k (List.mem_cons_of_mem key hk)),
      fieldEntries_put (equalFold_late hearly (hlate key List.mem_cons_self))]

/-- A spelling of the field is a trailer exactly when the field is announced. -/
theorem responseTrailerNames_contains_fold (h : Header) (key : Bytes) (hkey : equalFold key name = true) :
    (responseTrailerNames h).contains key = announces h name := by
  rw [← responseTrailerNames_contains _ hearly]
  unfold HeaderNameSet.contains
  rw [(equalFold_iff _ _).mp hkey]

/-- **What is replayed** of a field: nothing if it is announced as a trailer. -/
theorem fieldEntries_replay (h : Header) :
    fieldEntries (replayHeader h) name = if announces h name then [] else fieldEntries h name := by
  unfold replayHeader
  simp only
  rw [fieldEntries_foldl_put hearly, HeaderNameSet.removeFrom,
    fieldEntries_of_announces (responseTrailerNames_contains_fold hearly _)]
  intro key hkey
  obtain ⟨e, he, rfl⟩ := List.mem_map.mp hkey
  exact (List.mem_filter.mp he).2

end Early

/-- The metadata of `ETag` leaves the announcements of other fields. -/
theorem announces_setETagMetadata {name : Bytes} (htag : toLower name ≠ lit "etag")
    (hlength : toLower name ≠ lit "content-length") (h : Header) (body etag : Bytes) :
    announces (setETagMetadata h body etag) name = announces h name := by
  have hset : announces ((stripResponseTrailer (stripResponseTrailer (deleteHeaderFold
      (deleteHeaderFold h (lit "ETag")) (lit "Content-Length")) (lit "ETag")) (lit "Content-Length")).set
      (lit "ETag") etag) name = announces h name := by
    rw [announces_congr (fieldEntries_set (by decide)), announces_stripResponseTrailer hlength (by decide),
      announces_stripResponseTrailer htag (by decide),
      announces_congr (fieldEntries_deleteHeaderFold (by decide)),
      announces_congr (fieldEntries_deleteHeaderFold (by decide))]
  unfold setETagMetadata
  simp only
  split
  · rw [announces_congr (fieldEntries_set (by decide)), hset]
  · exact hset

section Ordinary

variable {name : Bytes} (hname : ordinaryField name = true)
include hname

theorem ordinaryField_early : hasPrefix (toLower name) (lit "trailer:") = false := by
  simp only [ordinaryField, Bool.and_eq_true, Bool.not_eq_true'] at hname
  exact hname.2

theorem ordinaryField_ne {other : Bytes}
    (hother : toLower other = lit "etag" ∨ toLower other = lit "content-length" ∨
      toLower other = lit "trailer" ∨ hasPrefix (toLower other) (lit "trailer:") = true) :
    toLower name ≠ toLower other := by
  simp only [ordinaryField, Bool.and_eq_true, bne_iff_ne, ne_eq, Bool.not_eq_true'] at hname
  intro heq
  rcases hother with h | h | h | h
  · exact hname.1.1.1 (heq.trans h)
  · exact hname.1.1.2 (heq.trans h)
  · exact hname.1.2 (heq.trans h)
  · rw [← heq, hname.2] at h
    cases h

theorem ordinaryField_fold {other : Bytes}
    (hother : toLower other = lit "etag" ∨ toLower other = lit "content-length" ∨
      toLower other = lit "trailer" ∨ hasPrefix (toLower other) (lit "trailer:") = true) :
    equalFold other name = false := by
  rw [← Bool.not_eq_true, equalFold_iff]
  exact fun heq => ordinaryField_ne hname hother heq.symm

/-- The metadata of `ETag` leaves the other fields. -/
theorem fieldEntries_setETagMetadata (h : Header) (body etag : Bytes) :
    fieldEntries (setETagMetadata h body etag) name = fieldEntries h name := by
  have htag : equalFold (canonicalHeaderKey (lit "ETag")) name = false :=
    ordinaryField_fold hname (Or.inl (by decide))
  have hlength : equalFold (canonicalHeaderKey (lit "Content-Length")) name = false :=
    ordinaryField_fold hname (Or.inr (Or.inl (by decide)))
  have htrailer : toLower name ≠ toLower (lit "Trailer") :=
    ordinaryField_ne hname (Or.inr (Or.inr (Or.inl (by decide))))
  have hlate : ∀ other, toLower name ≠ toLower (trailerPrefix ++ other) := by
    intro other
    refine ordinaryField_ne hname (Or.inr (Or.inr (Or.inr ?_)))
    rw [toLower_append, hasPrefix_iff]
    exact ⟨toLower other, by rw [show toLower trailerPrefix = lit "trailer:" by decide]⟩
  have hset : fieldEntries ((stripResponseTrailer (stripResponseTrailer (deleteHeaderFold
      (deleteHeaderFold h (lit "ETag")) (lit "Content-Length")) (lit "ETag")) (lit "Content-Length")).set
      (lit "ETag") etag) name = fieldEntries h name := by
    rw [fieldEntries_set htag, fieldEntries_stripResponseTrailer htrailer (hlate _),
      fieldEntries_stripResponseTrailer htrailer (hlate _),
      fieldEntries_deleteHeaderFold (ordinaryField_ne hname (Or.inr (Or.inl (by decide)))),
      fieldEntries_deleteHeaderFold (ordinaryField_ne hname (Or.inl (by decide)))]
  unfold setETagMetadata
  simp only
  split
  · rw [fieldEntries_set hlength, hset]
  · exact hset

theorem announces_ordinary (h : Header) (body etag : Bytes) :
    announces (setETagMetadata h body etag) name = announces h name := by
  simp only [ordinaryField, Bool.and_eq_true, bne_iff_ne, ne_eq] at hname
  exact announces_setETagMetadata hname.1.1.1 hname.1.1.2 h body etag

theorem fieldEntries_replayed (h : Header) (body etag : Bytes) :
    fieldEntries (replayed h body etag) name = if announces h name then [] else fieldEntries h name := by
  rw [replayed, fieldEntries_replay (ordinaryField_early hname), announces_ordinary hname,
    fieldEntries_setETagMetadata hname]

omit hname in
/-- Copying distinct keys over a header without the field gives the copied part of it. -/
theorem fieldEntries_foldr_put {copied : List (Bytes × List Bytes)} (hnodup : (copied.map Prod.fst).Nodup)
    {h : Header} (hempty : fieldEntries h name = []) :
    fieldEntries (copied.foldr (fun e h => h.put e.1 e.2) h) name =
      copied.filter fun e => equalFold e.1 name := by
  induction copied with
  | nil => exact hempty
  | cons e copied ih =>
    rw [List.map_cons, List.nodup_cons] at hnodup
    have hrest := ih hnodup.2
    rw [List.foldr_cons]
    by_cases hfold : equalFold e.1 name = true
    · have hkeep : fieldEntries ((copied.foldr (fun e h => h.put e.1 e.2) h).deleteWhere (· == e.1)) name =
          copied.filter fun e => equalFold e.1 name := by
        rw [← hrest]
        refine fieldEntries_deleteWhere fun e' he' hfold' => ?_
        rw [beq_eq_false_iff_ne]
        intro heq
        have hmem := mem_fieldEntries.mpr ⟨he', hfold'⟩
        rw [hrest] at hmem
        exact hnodup.1 (heq ▸ List.mem_map_of_mem (List.mem_filter.mp hmem).1)
      rw [List.filter_cons, if_pos hfold, ← hkeep]
      exact (List.filter_cons ..).trans (if_pos hfold)
    · rw [fieldEntries_put (Bool.not_eq_true _ ▸ hfold), List.filter_cons, if_neg hfold, hrest]

omit hname in
theorem fieldEntries_foldr_put_other {copied : List (Bytes × List Bytes)}
    (hother : ∀ e ∈ copied, equalFold e.1 name = false) (h : Header) :
    fieldEntries (copied.foldr (fun e h => h.put e.1 e.2) h) name = fieldEntries h name := by
  induction copied with
  | nil => rfl
  | cons e copied ih =>
    rw [List.foldr_cons, fieldEntries_put (hother e List.mem_cons_self),
      ih fun e' he' => hother e' (List.mem_cons_of_mem e he')]

/-- **Copied back**, a field is what was buffered. -/
theorem fieldEntries_copyTrailers (h : Header) (body etag : Bytes) :
    fieldEntries (copyTrailers (setETagMetadata h body etag) (replayed h body etag)) name =
      fieldEntries h name := by
  have hreplay := fieldEntries_replayed hname h body etag
  rw [← announces_ordinary hname h body etag] at hreplay
  have hcontains := responseTrailerNames_contains_fold (ordinaryField_early hname) (setETagMetadata h body etag)
  unfold copyTrailers
  by_cases hannounced : announces (setETagMetadata h body etag) name = true
  · rw [if_pos hannounced] at hreplay
    rw [fieldEntries_foldr_put _ hreplay, List.filter_filter, ← fieldEntries_setETagMetadata hname h body
      etag]
    · refine List.filter_congr fun e _ => ?_
      cases hfold : equalFold e.1 name with
      | false => rfl
      | true => rw [hcontains e.1 hfold, hannounced]; rfl
    · exact (setETagMetadata h body etag).nodup.sublist (List.filter_sublist.map _)
  · rw [if_neg hannounced] at hreplay
    rw [fieldEntries_foldr_put_other, hreplay]
    intro e he
    have hin := (List.mem_filter.mp he).2
    rw [← Bool.not_eq_true]
    intro hfold
    rw [hcontains e.1 hfold] at hin
    exact hannounced hin

omit hname in
/-- The published header announces what the buffered one does, unless that takes its `Trailer` field away. -/
theorem announces_replayed (htag : toLower name ≠ lit "etag") (hlength : toLower name ≠ lit "content-length")
    (h : Header) (body etag : Bytes) :
    announces (replayed h body etag) name = (!announces h (lit "Trailer") && announces h name) := by
  have htrailer : fieldEntries (replayed h body etag) (lit "Trailer") =
      if announces h (lit "Trailer") then [] else fieldEntries (setETagMetadata h body etag) (lit "Trailer") := by
    rw [replayed, fieldEntries_replay (by decide), announces_setETagMetadata (by decide) (by decide)]
  cases hown : announces h (lit "Trailer") with
  | true =>
    rw [hown, if_pos rfl] at htrailer
    rw [announces, htrailer]
    rfl
  | false =>
    rw [hown, if_neg Bool.false_ne_true] at htrailer
    rw [announces_congr htrailer, announces_setETagMetadata htag hlength]
    rfl

/-- **What comes back** of a field: it is what was buffered, unless it is announced as a trailer together with
the `Trailer` field itself. -/
theorem fieldEntries_returned (h : Header) (body etag : Bytes) :
    fieldEntries (returned h body etag) name =
      if announces h (lit "Trailer") && announces h name then [] else fieldEntries h name := by
  have hordinary := hname
  simp only [ordinaryField, Bool.and_eq_true, bne_iff_ne, ne_eq] at hordinary
  have hcopied := fieldEntries_copyTrailers hname h body etag
  have hreplay := fieldEntries_replayed hname h body etag
  have hannounces := announces_replayed hordinary.1.1.1 hordinary.1.1.2 h body etag
  unfold returned
  generalize replayed h body etag = published at hcopied hreplay hannounces ⊢
  generalize copyTrailers (setETagMetadata h body etag) published = header at hcopied ⊢
  have hcontains := responseTrailerNames_contains_fold (ordinaryField_early hname) published
  unfold finishCommitted
  simp only
  by_cases hannounced : announces published name = true
  · have hgone : fieldEntries ((responseTrailerNames published).removeFrom published) name = [] := by
      rw [HeaderNameSet.removeFrom, fieldEntries_of_announces hcontains, if_pos hannounced]
    rw [fieldEntries_foldr_put _ hgone, List.filter_filter]
    · rw [hannounces, Bool.and_eq_true, Bool.not_eq_true'] at hannounced
      rw [hannounced.1, Bool.false_and, if_neg Bool.false_ne_true, ← hcopied]
      refine List.filter_congr fun e _ => ?_
      cases hfold : equalFold e.1 name with
      | false => rfl
      | true => rw [hcontains e.1 hfold, hannounces, hannounced.1, hannounced.2]; rfl
    · exact header.nodup.sublist (List.filter_sublist.map _)
  · rw [fieldEntries_foldr_put_other, HeaderNameSet.removeFrom, fieldEntries_of_announces hcontains,
      if_neg hannounced, hreplay]
    · rw [hannounces] at hannounced
      cases hown : announces h (lit "Trailer") with
      | true => rw [Bool.true_and]
      | false =>
        rw [hown, Bool.not_false, Bool.true_and] at hannounced
        rw [Bool.false_and, if_neg Bool.false_ne_true, if_neg hannounced]
    · intro e he
      rw [← Bool.not_eq_true]
      intro hfold
      rcases Bool.or_eq_true_iff.mp (List.mem_filter.mp he).2 with hin | hlate
      · rw [hcontains e.1 hfold] at hin
        exact hannounced hin
      · rw [equalFold_late (ordinaryField_early hname) hlate] at hfold
        cases hfold

end Ordinary

/-! ### The fields that decide -/

/-- The fields the decisions are made from. -/
def decidingFields : List Bytes :=
  [lit "Content-Encoding", lit "Content-Range", lit "Cache-Control", lit "Content-Type"]

/-- The deciding fields of `h'` are those of `h`, without the ones in `gone`. -/
def Leaves (gone : Bytes → Bool) (h h' : Header) : Prop :=
  ∀ name ∈ decidingFields, fieldEntries h' name = if gone name then [] else fieldEntries h name

theorem ordinaryField_of_deciding : ∀ name ∈ decidingFields, ordinaryField name = true := by decide

theorem leaves_replayed (h : Header) (body etag : Bytes) : Leaves (announces h) h (replayed h body etag) :=
  fun name hmem => fieldEntries_replayed (ordinaryField_of_deciding name hmem) h body etag

theorem leaves_withoutTrailers (h : Header) : Leaves (announces h) h (withoutTrailers h) :=
  fun name _ => fieldEntries_withoutTrailers h name

/-- The representation has a coding. -/
def Coded (h : Header) : Prop := currentCoding h ≠ [] ∧ equalFold (currentCoding h) (lit "identity") = false

/-- A field that is not in `gone` keeps `EncodeResponse` from encoding, whatever the type. -/
def keepsPlain (gone : Bytes → Bool) (h : Header) : Bool :=
  !gone (lit "Content-Range") && (cacheHeaderValues h (lit "Content-Range")).2 ||
    !gone (lit "Cache-Control") && !cacheControlAllows h [lit "no-transform"] ||
    !gone (lit "Content-Encoding") && h.get (lit "Content-Encoding") != []

theorem keepsPlain_mono {gone : Bytes → Bool} {h : Header} (hkeeps : keepsPlain gone h = true) :
    keepsPlain (fun _ => false) h = true := by
  simp only [keepsPlain, Bool.or_eq_true, Bool.and_eq_true, Bool.not_false, true_and] at hkeeps ⊢
  exact hkeeps.imp (Or.imp And.right And.right) And.right

section Leaves

variable {gone : Bytes → Bool} {h h' : Header} (hleaves : Leaves gone h h')
include hleaves

/-- A field that is gone reads as in a header without fields. -/
theorem Leaves.entries_eq {name : Bytes} (hmem : name ∈ decidingFields) :
    fieldEntries h' name = fieldEntries (if gone name then plainHeader else h) name := by
  rw [hleaves name hmem]
  cases gone name <;> rfl

theorem Leaves.get_eq {name : Bytes} (hmem : name ∈ decidingFields)
    (hname : equalFold (canonicalHeaderKey name) name = true) :
    h'.get name = if gone name then [] else h.get name := by
  rw [get_congr hname (hleaves.entries_eq hmem)]
  cases gone name <;> rfl

theorem Leaves.range_eq : (cacheHeaderValues h' (lit "Content-Range")).2 =
    (!gone (lit "Content-Range") && (cacheHeaderValues h (lit "Content-Range")).2) := by
  rw [cacheHeaderValues_congr (hleaves.entries_eq (by decide))]
  cases gone (lit "Content-Range") <;> rfl

theorem Leaves.cacheControlAllows_eq (forbidden : List Bytes) : cacheControlAllows h' forbidden =
    (gone (lit "Cache-Control") || cacheControlAllows h forbidden) := by
  rw [cacheControlAllows_congr (hleaves.entries_eq (by decide))]
  cases gone (lit "Cache-Control") <;> rfl

theorem Leaves.currentCoding_eq :
    currentCoding h' = if gone (lit "Content-Encoding") then [] else currentCoding h := by
  unfold currentCoding
  rw [cacheHeaderValues_congr (hleaves.entries_eq (by decide))]
  cases gone (lit "Content-Encoding") <;> rfl

/-- A negotiation reads the deciding fields only. -/
theorem Leaves.selectCoding_eq {h'' : Header} (hleaves' : Leaves gone h h'') (n : Negotiator) (status : ℕ) :
    n.selectCoding h' status = n.selectCoding h'' status := by
  unfold Negotiator.selectCoding Negotiator.fresh
  rw [hleaves.currentCoding_eq, hleaves'.currentCoding_eq, hleaves.range_eq, hleaves'.range_eq,
    hleaves.cacheControlAllows_eq, hleaves'.cacheControlAllows_eq]

theorem Leaves.keepsPlain_eq : keepsPlain (fun _ => false) h' = keepsPlain gone h := by
  unfold keepsPlain
  rw [hleaves.range_eq, hleaves.cacheControlAllows_eq, hleaves.get_eq (by decide) (by decide), Bool.not_or]
  cases gone (lit "Content-Encoding") <;> rfl

end Leaves

/-! ### What `EncodeResponse` sees -/

/-- The trailers come back before `EncodeResponse` decides: it holds a short body for want of a type, and the
published header still announces them. -/
def comesBack (policy : EncodingPolicy) (h : Header) (body : Bytes) : Bool :=
  (decide (h.get (lit "Content-Type") = []) || announces h (lit "Content-Type")) &&
    decide (body.length < max 512 policy.minimumBytes) && !announces h (lit "Trailer")

/-- The field is announced as a trailer and is not back when `EncodeResponse` decides. -/
def lost (policy : EncodingPolicy) (h : Header) (body name : Bytes) : Bool :=
  announces h name && !comesBack policy h body

/-- The type `EncodeResponse` goes by: the declared one, or else that of the body. -/
def typeSeen (mt : MediaTypes) (policy : EncodingPolicy) (h : Header) (body : Bytes) : Bytes :=
  if h.get (lit "Content-Type") = [] ∨ lost policy h body (lit "Content-Type") = true then
    mt.detectContentType body
  else h.get (lit "Content-Type")

/-- The header `EncodeResponse` decides from: the replayed one, or the one with the trailers back where it
holds a body without a type to the end. -/
def decisionHeader (policy : EncodingPolicy) (replayed returned : Header) (body : Bytes) : Header :=
  if replayed.get (lit "Content-Type") = [] ∧ body.length < max 512 policy.minimumBytes then returned
  else replayed

theorem leaves_decisionHeader (policy : EncodingPolicy) (h : Header) (body etag : Bytes) :
    Leaves (lost policy h body) h (decisionHeader policy (replayed h body etag) (returned h body etag) body) := by
  intro name hmem
  have hreplay := leaves_replayed h body etag
  have hnil : (decide (h.get (lit "Content-Type") = []) || announces h (lit "Content-Type")) =
      decide ((replayed h body etag).get (lit "Content-Type") = []) := by
    rw [hreplay.get_eq (by decide) (by decide)]
    cases announces h (lit "Content-Type") <;> simp
  unfold decisionHeader lost comesBack
  rw [hnil]
  by_cases hheld : (replayed h body etag).get (lit "Content-Type") = [] ∧
      body.length < max 512 policy.minimumBytes
  · rw [if_pos hheld, decide_eq_true hheld.1, decide_eq_true hheld.2,
      fieldEntries_returned (ordinaryField_of_deciding name hmem), Bool.and_self, Bool.true_and,
      Bool.not_not, Bool.and_comm]
  · have hback : (decide ((replayed h body etag).get (lit "Content-Type") = []) &&
        decide (body.length < max 512 policy.minimumBytes)) = false := by
      rw [← Bool.decide_and, decide_eq_false hheld]
    rw [if_neg hheld, hback, Bool.false_and, Bool.not_false, Bool.and_true]
    exact hreplay name hmem

/-! ### Without the trailers, less keeps a response as it is -/

/-- A coding stays unless it is announced as a trailer. -/
theorem coded_withoutTrailers_iff {h : Header} :
    Coded (withoutTrailers h) ↔ Coded h ∧ announces h (lit "Content-Encoding") = false := by
  unfold Coded
  rw [(leaves_withoutTrailers h).currentCoding_eq]
  cases announces h (lit "Content-Encoding") <;> simp

variable {n : Negotiator}

theorem freshAllowed_withoutTrailers {h : Header} (hfresh : n.FreshAllowed h 200) :
    n.FreshAllowed (withoutTrailers h) 200 := by
  obtain ⟨huncoded, hfresh⟩ := hfresh
  refine ⟨fun hcoded => huncoded (coded_withoutTrailers_iff.mp hcoded).1, ?_⟩
  unfold Negotiator.fresh at hfresh ⊢
  simp only [Bool.and_eq_true, Bool.not_eq_true'] at hfresh ⊢
  refine ⟨⟨⟨hfresh.1.1.1, ?_⟩, hfresh.1.2⟩, ?_⟩
  · rw [(leaves_withoutTrailers h).range_eq, hfresh.1.1.2, Bool.and_false]
  · rw [(leaves_withoutTrailers h).cacheControlAllows_eq, hfresh.2, Bool.or_true]

/-! ### What is delivered -/

/-- A body does not change what was decided with the status. -/
theorem CompressWriter.write_decision {w : CompressWriter} (hstatus : w.status ≠ 0) (body : Bytes) :
    (w.write body).rejected = w.rejected ∧ (w.write body).encoding = w.encoding := by
  unfold CompressWriter.write
  rw [if_neg hstatus]
  simp only
  split
  · exact ⟨rfl, rfl⟩
  split
  · exact ⟨rfl, rfl⟩
  split
  · exact ⟨rfl, rfl⟩
  · exact ⟨rfl, rfl⟩

/-- The status 200 decides by `selectCoding`. -/
theorem CompressWriter.writeHeader_ok (n : Negotiator) (multiplexed : Bool) (h : Header) (coding : Bytes)
    (acceptable : Bool) (hselect : n.selectCoding h 200 = (coding, acceptable)) (w : CompressWriter)
    (hw : CompressWriter.writeHeader { negotiation := n, header := h, multiplexed := multiplexed } 200 = w) :
    w.status ≠ 0 ∧ w.rejected = !acceptable ∧ w.encoding = (acceptable && coding != []) := by
  have hstart : CompressWriter.writeHeader { negotiation := n, header := h, multiplexed := multiplexed } 200 =
      let w := CompressWriter.startEncoding
        { negotiation := n, header := h, multiplexed := multiplexed, status := 200 }
      { w with sent := w.sent ++ [(w.status, w.header)] } := by
    unfold CompressWriter.writeHeader
    rw [if_neg (by simp), if_neg (by simp), if_pos (Or.inl (by decide))]
  rw [← hw, hstart]
  unfold CompressWriter.startEncoding
  rw [if_neg (by simp [CompressWriter.bodyless])]
  simp only [hselect]
  cases acceptable with
  | false => exact ⟨by simp, rfl, rfl⟩
  | true =>
    by_cases hcoding : coding = []
    · simp only [hcoding, if_true]
      exact ⟨by simp, rfl, rfl⟩
    · simp only [hcoding, if_false]
      refine ⟨by simp, rfl, ?_⟩
      simp [hcoding]

theorem deliver_compress (mt : MediaTypes) (n : Negotiator) (multiplexed : Bool) (h : Header) (body : Bytes) :
    (Outer.compress n multiplexed).deliver mt h body =
      if (n.selectCoding (replayHeader h) 200).2 = false then .rejected
      else if (n.selectCoding (replayHeader h) 200).1 = [] then .plain
      else .encoded := by
  obtain ⟨w, hw⟩ : ∃ w, CompressWriter.writeHeader
    { negotiation := n, header := replayHeader h, multiplexed := multiplexed } 200 = w := ⟨_, rfl⟩
  obtain ⟨⟨coding, acceptable⟩, hselect⟩ : ∃ choice, n.selectCoding (replayHeader h) 200 = choice := ⟨_, rfl⟩
  obtain ⟨hstatus, hrejected, hencoding⟩ :=
    CompressWriter.writeHeader_ok n multiplexed (replayHeader h) coding acceptable hselect w hw
  obtain ⟨hkeptRejected, hkeptEncoding⟩ := CompressWriter.write_decision hstatus body
  rw [hselect]
  simp only [Outer.deliver, hw, hkeptRejected, hkeptEncoding, hrejected, hencoding]
  cases acceptable with
  | false => simp
  | true =>
    by_cases hcoding : coding = []
    · simp [hcoding]
    · simp [hcoding]

theorem finish_held (mt : MediaTypes) (policy : EncodingPolicy) (coding : Bytes) (multiplexed : Bool)
    (header : Header) (body : Bytes) :
    ((holding multiplexed 200 header body).finish mt policy coding).encoding =
      encodes mt policy header 200 body := by
  rw [finish_stage (Stage.held : Stage mt policy coding multiplexed header 200 body _)]
  exact (finish_decided mt policy coding multiplexed 200 _ _ body).1

/-- After a decision, neither the trailers nor the end change it. -/
theorem finish_committed (mt : MediaTypes) (policy : EncodingPolicy) (coding : Bytes) (multiplexed : Bool)
    (typed header : Header) (encode : Bool) (body : Bytes) :
    (EncodingWriter.finish mt policy coding
      { Encoding.decided coding multiplexed 200 typed encode body with header := header }).encoding =
      encode := by
  cases encode <;> rfl

variable {policy : EncodingPolicy}

theorem encodes_of_short {mt : MediaTypes} {body : Bytes}
    (hshort : body.length < policy.minimumBytes) (h : Header) :
    encodes mt policy h 200 body = false := by
  unfold encodes
  rw [decide_eq_false (Nat.not_le.mpr hshort), Bool.false_and]

/-- A long body is decided about when its type is settled. -/
theorem settledWrite_committed {mt : MediaTypes} {body : Bytes}
    (hlong : ¬ body.length < policy.minimumBytes) (coding : Bytes) (multiplexed : Bool)
    (typed : Header) :
    (settledWrite mt policy coding multiplexed 200 typed [] body).committed = true := by
  unfold settledWrite
  split
  · rw [commit_holding, forward_decided]
    rfl
  · rw [if_neg (by rw [List.length_nil, Nat.zero_add]; exact hlong), commit_holding, forward_decided]
    rfl

/-- Once its type is settled, only a short body is held. -/
theorem short_of_holding {mt : MediaTypes} {coding : Bytes} {multiplexed : Bool} {header : Header}
    {body : Bytes}
    (hsettled : ¬ (header.get (lit "Content-Type") = [] ∧ body.length < max 512 policy.minimumBytes))
    (hheld : (holding multiplexed 200 header []).write mt policy coding body =
      holding multiplexed 200 header body) : body.length < policy.minimumBytes := by
  by_contra hlong
  have hcommitted : ((holding multiplexed 200 header []).write mt policy coding body).committed = true := by
    rw [write_holding, List.length_nil, Nat.zero_add]
    by_cases htype : header.get (lit "Content-Type") = []
    · rw [if_pos htype, if_neg fun hshort => hsettled ⟨htype, hshort⟩]
      exact settledWrite_committed hlong coding multiplexed _
    · rw [if_neg htype]
      exact settledWrite_committed hlong coding multiplexed _
  rw [hheld] at hcommitted
  exact absurd hcommitted (by simp [holding])

theorem deliver_encodeResponse (mt : MediaTypes) (policy : EncodingPolicy) (hpolicy : 0 < policy.minimumBytes)
    (coding : Bytes) (hcoding : coding ≠ []) (multiplexed : Bool) (h : Header) (body : Bytes) :
    (Outer.encodeResponse policy hpolicy coding hcoding multiplexed).deliver mt h body =
      if encodes mt policy (decisionHeader policy (replayHeader h) (finishCommitted (replayHeader h)
        (copyTrailers h (replayHeader h))) body) 200 body then .encoded else .plain := by
  have hstart : EncodingWriter.writeHeader { header := replayHeader h, multiplexed := multiplexed } 200 =
      holding multiplexed 200 (replayHeader h) [] := rfl
  have hstage : Stage mt policy coding multiplexed (replayHeader h) 200 ([] ++ body)
      ((holding multiplexed 200 (replayHeader h) []).write mt policy coding body) := write_stage Stage.held
  unfold Outer.deliver decisionHeader
  simp only [hstart]
  by_cases hhold : (replayHeader h).get (lit "Content-Type") = [] ∧
      body.length < max 512 policy.minimumBytes
  · have hwrite : (holding multiplexed 200 (replayHeader h) []).write mt policy coding body =
        holding multiplexed 200 (replayHeader h) body := by
      rw [write_holding, if_pos hhold.1, List.length_nil, Nat.zero_add, if_pos hhold.2, List.nil_append]
    rw [if_pos hhold, hwrite, ← finish_held mt policy coding multiplexed]
    rfl
  · rw [if_neg hhold]
    generalize hwrite : (holding multiplexed 200 (replayHeader h) []).write mt policy coding body = w
      at hstage ⊢
    cases hstage with
    | held =>
      have hshort := short_of_holding hhold hwrite
      rw [encodes_of_short hshort, ← encodes_of_short hshort (finishCommitted (replayHeader h)
        (copyTrailers h (replayHeader h))), ← finish_held mt policy coding multiplexed]
      rfl
    | decided typed encode hstable =>
      rw [finish_committed]
      have hencode := (hstable []).2
      rw [List.append_nil] at hencode
      rw [← hencode]
      rfl

/-! ### The two decisions -/

theorem responseEncodingEligible_eq (mt : MediaTypes) (h : Header) (policy : EncodingPolicy) :
    responseEncodingEligible mt h 200 policy =
      (!keepsPlain (fun _ => false) h && typeEligible mt policy (h.get (lit "Content-Type"))) := by
  unfold responseEncodingEligible keepsPlain
  cases (cacheHeaderValues h (lit "Content-Range")).2 <;>
    cases cacheControlAllows h [lit "no-transform"] <;>
      by_cases hcoding : h.get (lit "Content-Encoding") = [] <;>
        simp [hcoding, responseEncodingBodyless]

/-- The writer's decision about a body that is not empty, from what is left of the fields. -/
theorem eligible_typedHeader (mt : MediaTypes) {h h' : Header} (policy : EncodingPolicy) {body : Bytes}
    (hbody : body ≠ []) (hleaves : Leaves (lost policy h body) h h') :
    responseEncodingEligible mt (typedHeader mt h' body) 200 policy =
      (!keepsPlain (lost policy h body) h && typeEligible mt policy (typeSeen mt policy h body)) := by
  have htype : h'.get (lit "Content-Type") = _ := hleaves.get_eq (by decide) (by decide)
  have hnil : h'.get (lit "Content-Type") = [] ↔
      h.get (lit "Content-Type") = [] ∨ lost policy h body (lit "Content-Type") = true := by
    rw [htype]
    cases lost policy h body (lit "Content-Type") <;> simp
  rw [responseEncodingEligible_eq, ← hleaves.keepsPlain_eq]
  unfold typedHeader typeSeen
  by_cases hsniff : h'.get (lit "Content-Type") = []
  · rw [if_pos ⟨hsniff, hbody⟩, if_pos (hnil.mp hsniff), Header.get_set_self]
    congr 2
    unfold keepsPlain
    rw [cacheHeaderValues_congr (fieldEntries_set (by decide)),
      cacheControlAllows_congr (fieldEntries_set (by decide)),
      get_congr (by decide) (fieldEntries_set (by decide))]
  · rw [if_neg fun h => hsniff h.1, if_neg fun h => hsniff (hnil.mpr h), htype]
    rw [hnil, not_or] at hsniff
    rw [if_neg hsniff.2]

/-- **The decisions agree.**  For `Compress`: the buffered header allows a new coding, or a coding of the
representation is not announced as a trailer, or identity is what remains to be delivered.  For
`EncodeResponse`: the body is short; or a field that keeps it unencoded is not lost; or there is none and the
declared type is not lost; or the type that is seen is not eligible, and the response was predicted to stay as
it is for a field or for its type; or there is no such field and both types are eligible. -/
def Outer.Consistent (mt : MediaTypes) : Outer → Header → Bytes → Prop
  | .compress n _, h, _ =>
    n.FreshAllowed h 200 ∨ (Coded h ∧ announces h (lit "Content-Encoding") = false) ∨
      (0 < n.prefs.weight (lit "identity") ∧
        (n.fresh (withoutTrailers h) 200 = true →
          n.ListedAbove ∨ ∀ coding, n.Enabled coding → n.prefs.weight coding = 0))
  | .encodeResponse policy _ _ _ _, h, body =>
    body.length < policy.minimumBytes ∨ keepsPlain (lost policy h body) h = true ∨
      (keepsPlain (fun _ => false) h = false ∧ h.get (lit "Content-Type") ≠ [] ∧
        lost policy h body (lit "Content-Type") = false) ∨
      (typeEligible mt policy (typeSeen mt policy h body) = false ∧
        (keepsPlain (fun _ => false) h = true ∨ typeEligible mt policy (h.get (lit "Content-Type")) = false)) ∨
      (keepsPlain (fun _ => false) h = false ∧ typeEligible mt policy (h.get (lit "Content-Type")) = true ∧
        typeEligible mt policy (typeSeen mt policy h body) = true)

/-- Identity is what a fresh choice delivers. -/
theorem preferredCoding_identity (hpresent : n.prefs.present = true) :
    n.preferredCoding = ([], true) ↔ 0 < n.prefs.weight (lit "identity") ∧
      (n.ListedAbove ∨ ∀ coding, n.Enabled coding → n.prefs.weight coding = 0) := by
  obtain ⟨hbest, hzero⟩ := preferredCoding_best n
  have hrefuses := preferredCoding_refuses hpresent
  by_cases hall : ∀ coding, n.Enabled coding → n.prefs.weight coding = 0
  · have hfst := hzero hall
    rw [and_iff_left (Or.inr hall), Prod.ext_iff]
    simp only [hfst, true_and]
    rw [Nat.pos_iff_ne_zero, ← Bool.not_eq_false, hrefuses]
    exact not_congr ⟨fun h => h.1, fun h => ⟨h, hall⟩⟩
  · push Not at hall
    obtain ⟨coding, henabled, hweight⟩ := hall
    obtain ⟨hlisted, hnot⟩ := hbest ⟨coding, henabled, hweight⟩
    by_cases habove : n.ListedAbove
    · refine iff_of_true (hlisted habove) ⟨?_, Or.inl habove⟩
      obtain ⟨q, hq, hlt⟩ := habove
      rw [weight_of_listed hpresent (by decide) hq]
      exact (Nat.zero_le _).trans_lt (hlt coding henabled)
    · refine iff_of_false (fun heq => ?_) fun hright => ?_
      · have henabled' := (hnot habove).2.1
        rw [heq] at henabled'
        rcases henabled' with ⟨hbr, -⟩ | ⟨hgzip, -⟩
        · cases hbr
        · cases hgzip
      · rcases hright.2 with h | h
        · exact habove h
        · exact hweight (h coding henabled)

theorem selectCoding_of_coded {h : Header} (hcoded : Coded h) :
    n.selectCoding h 200 = ([], n.prefs.acceptsStack (currentCoding h)) := by
  unfold Negotiator.selectCoding
  exact if_pos hcoded

theorem selectCoding_of_stale {h : Header} (hcoded : ¬ Coded h) (hfresh : n.fresh h 200 = false) :
    n.selectCoding h 200 = ([], decide (n.prefs.weight (lit "identity") > 0)) := by
  unfold Negotiator.selectCoding
  exact (if_neg hcoded).trans (if_pos hfresh)

/-- What no fresh coding is allowed for is preserved. -/
theorem selectCoding_of_not_freshAllowed {h : Header} (hfresh : ¬ n.FreshAllowed h 200) :
    (n.selectCoding h 200).1 = [] := by
  by_cases hcoded : Coded h
  · rw [selectCoding_of_coded hcoded]
  · rw [selectCoding_of_stale hcoded]
    rw [← Bool.not_eq_true]
    exact fun h => hfresh ⟨hcoded, h⟩

/-- An acceptable representation that is preserved is replayed as one exactly when the decisions agree. -/
theorem preserved_iff {h : Header} (hacceptable : (n.selectCoding h 200).2 = true) :
    n.selectCoding (withoutTrailers h) 200 = ([], true) ↔
      (Coded h ∧ announces h (lit "Content-Encoding") = false) ∨
      (0 < n.prefs.weight (lit "identity") ∧ (n.fresh (withoutTrailers h) 200 = true →
        n.ListedAbove ∨ ∀ coding, n.Enabled coding → n.prefs.weight coding = 0)) := by
  rw [← coded_withoutTrailers_iff]
  by_cases hcoded : Coded (withoutTrailers h)
  · refine iff_of_true ?_ (Or.inl hcoded)
    obtain ⟨hcoded', hkept⟩ := coded_withoutTrailers_iff.mp hcoded
    rw [selectCoding_of_coded hcoded'] at hacceptable
    rw [selectCoding_of_coded hcoded, (leaves_withoutTrailers h).currentCoding_eq, hkept]
    exact congrArg (Prod.mk []) hacceptable
  rw [or_iff_right hcoded]
  cases hstale : n.fresh (withoutTrailers h) 200 with
  | false =>
    rw [selectCoding_of_stale hcoded hstale]
    simp
  | true =>
    have hpresent : n.prefs.present = true := by
      simp only [Negotiator.fresh, Bool.and_eq_true] at hstale
      exact hstale.1.1.1.1
    rw [selectCoding_of_freshAllowed ⟨hcoded, hstale⟩, preferredCoding_identity hpresent]
    simp

/-- A validator is weak exactly when a coding was predicted. -/
theorem validator_weak (digest : Bytes → Bytes) (coding body : Bytes) :
    hasPrefix (validator digest coding body) (lit "W/") = true ↔ coding ≠ [] := by
  by_cases hcoding : coding = []
  · rw [validator, if_neg (not_not.mpr hcoding)]
    refine iff_of_false ?_ (not_not.mpr hcoding)
    rw [hasPrefix_iff]
    rintro ⟨rest, hrest⟩
    exact absurd (List.cons.inj hrest).1 (by decide)
  · rw [validator, if_pos hcoding]
    refine iff_of_true ?_ hcoding
    rw [hasPrefix_iff]
    exact ⟨[34] ++ digest body ++ [34], by simp only [List.append_assoc]⟩

/-- The prediction of a coding is right about a delivery. -/
def Agrees (digest : Bytes → Bytes) (coding body : Bytes) (d : Delivery) : Prop :=
  (coding = [] ↔ d = .plain) ∧ (hasPrefix (validator digest coding body) (lit "W/") = true ↔ d = .encoded)

theorem agrees_of_empty {digest : Bytes → Bytes} {coding body : Bytes} {d : Delivery} (hcoding : coding = []) :
    Agrees digest coding body d ↔ d = .plain := by
  unfold Agrees
  rw [validator_weak]
  subst hcoding
  cases d <;> simp

theorem agrees_of_coding {digest : Bytes → Bytes} {coding body : Bytes} {d : Delivery} (hcoding : coding ≠ []) :
    Agrees digest coding body d ↔ d = .encoded := by
  unfold Agrees
  rw [validator_weak]
  cases d <;> simp [hcoding]

section Strength

variable (mt : MediaTypes) (digest : Bytes → Bytes) (h : Header) (body : Bytes)

theorem compress_strength (n : Negotiator) (multiplexed : Bool)
    (hacceptable : (n.selectCoding (completeETagContentType mt h body) 200).2 = true) :
    Agrees digest (predictedCoding mt (.compress n multiplexed) h body) body
        (delivered mt digest (.compress n multiplexed) h body) ↔
      (Outer.compress n multiplexed).Consistent mt (completeETagContentType mt h body) body := by
  have hdelivered : delivered mt digest (.compress n multiplexed) h body =
      if (n.selectCoding (withoutTrailers (completeETagContentType mt h body)) 200).2 = false then .rejected
      else if (n.selectCoding (withoutTrailers (completeETagContentType mt h body)) 200).1 = [] then .plain
      else .encoded := by
    unfold delivered
    rw [deliver_compress]
    rw [show replayHeader (setETagMetadata _ _ _) = replayed _ _ _ from rfl,
      (leaves_replayed _ _ _).selectCoding_eq (leaves_withoutTrailers _)]
  have hpredicted : predictedCoding mt (.compress n multiplexed) h body =
      (n.selectCoding (completeETagContentType mt h body) 200).1 := rfl
  rw [hdelivered, hpredicted]
  generalize completeETagContentType mt h body = c at hacceptable ⊢
  by_cases hfresh : n.FreshAllowed c 200
  · -- both decide afresh
    have hsame : n.selectCoding (withoutTrailers c) 200 = n.selectCoding c 200 := by
      rw [selectCoding_of_freshAllowed hfresh, selectCoding_of_freshAllowed (freshAllowed_withoutTrailers hfresh)]
    refine iff_of_true ?_ (Or.inl hfresh)
    rw [hsame, hacceptable, if_neg (by simp)]
    by_cases hcoding : (n.selectCoding c 200).1 = []
    · rw [if_pos hcoding]
      exact (agrees_of_empty hcoding).mpr rfl
    · rw [if_neg hcoding]
      exact (agrees_of_coding hcoding).mpr rfl
  · -- the buffered representation is to be preserved
    have hplain : (if (n.selectCoding (withoutTrailers c) 200).2 = false then Delivery.rejected
        else if (n.selectCoding (withoutTrailers c) 200).1 = [] then .plain else .encoded) = .plain ↔
        n.selectCoding (withoutTrailers c) 200 = ([], true) := by
      rw [Prod.ext_iff]
      cases (n.selectCoding (withoutTrailers c) 200).2 with
      | false => simp
      | true => by_cases hnil : (n.selectCoding (withoutTrailers c) 200).1 = [] <;> simp [hnil]
    rw [agrees_of_empty (selectCoding_of_not_freshAllowed hfresh), hplain, preserved_iff hacceptable]
    exact (or_iff_right hfresh).symm

theorem encodeResponse_strength (policy : EncodingPolicy) (hpolicy : 0 < policy.minimumBytes) (coding : Bytes)
    (hcoding : coding ≠ []) (multiplexed : Bool) :
    Agrees digest (predictedCoding mt (.encodeResponse policy hpolicy coding hcoding multiplexed) h body) body
        (delivered mt digest (.encodeResponse policy hpolicy coding hcoding multiplexed) h body) ↔
      (Outer.encodeResponse policy hpolicy coding hcoding multiplexed).Consistent mt
        (completeETagContentType mt h body) body := by
  obtain ⟨c, hc⟩ : ∃ c, c = completeETagContentType mt h body := ⟨_, rfl⟩
  obtain ⟨etag, hetag⟩ : ∃ etag, etag = validator digest
    (predictedCoding mt (.encodeResponse policy hpolicy coding hcoding multiplexed) h body) body := ⟨_, rfl⟩
  have hdelivered : delivered mt digest (.encodeResponse policy hpolicy coding hcoding multiplexed) h body =
      if encodes mt policy (decisionHeader policy (replayed c body etag) (returned c body etag) body) 200 body
      then .encoded else .plain := by
    unfold delivered
    rw [deliver_encodeResponse, ← hc, ← hetag]
    rfl
  have hpredicted : predictedCoding mt (.encodeResponse policy hpolicy coding hcoding multiplexed) h body =
      if decide (policy.minimumBytes ≤ body.length) &&
        (!keepsPlain (fun _ => false) c && typeEligible mt policy (c.get (lit "Content-Type"))) then coding
      else [] := by
    unfold predictedCoding Outer.selectETagEncoding
    rw [← hc]
    simp only [responseEncodingEligible_eq]
    by_cases hshort : body.length < policy.minimumBytes
    · simp [hshort]
    · cases (!keepsPlain (fun _ => false) c && typeEligible mt policy (c.get (lit "Content-Type"))) <;>
        simp [hshort, Nat.not_lt.mp hshort]
  rw [hdelivered, hpredicted, ← hc]
  unfold Outer.Consistent
  simp only
  by_cases hlong : policy.minimumBytes ≤ body.length
  · have hbody : body ≠ [] := List.ne_nil_of_length_pos (hpolicy.trans_le hlong)
    rw [encodes, eligible_typedHeader mt policy hbody (leaves_decisionHeader policy c body etag),
      decide_eq_true hlong, Bool.true_and, Bool.true_and, or_iff_right (Nat.not_lt.mpr hlong)]
    have hmono : keepsPlain (lost policy c body) c = true → keepsPlain (fun _ => false) c = true :=
      keepsPlain_mono
    have hkept : c.get (lit "Content-Type") ≠ [] → lost policy c body (lit "Content-Type") = false →
        typeSeen mt policy c body = c.get (lit "Content-Type") := by
      intro htype hlost
      rw [typeSeen, if_neg]
      rw [hlost]
      simp [htype]
    generalize typeSeen mt policy c body = seen at hkept ⊢
    cases hplain : keepsPlain (fun _ => false) c with
    | true =>
      rw [Bool.not_true, Bool.false_and, if_neg Bool.false_ne_true, agrees_of_empty rfl]
      cases keepsPlain (lost policy c body) c <;> cases typeEligible mt policy seen <;> simp
    | false =>
      have hleft : keepsPlain (lost policy c body) c = false := by
        rw [← Bool.not_eq_true]
        intro hkeeps
        rw [hmono hkeeps] at hplain
        cases hplain
      rw [hleft, Bool.not_false, Bool.true_and, Bool.true_and]
      by_cases hsame : c.get (lit "Content-Type") ≠ [] ∧ lost policy c body (lit "Content-Type") = false
      · rw [hkept hsame.1 hsame.2]
        refine iff_of_true ?_ (Or.inr (Or.inl ⟨rfl, hsame⟩))
        cases typeEligible mt policy (c.get (lit "Content-Type")) with
        | false => exact (agrees_of_empty rfl).mpr rfl
        | true => exact (agrees_of_coding hcoding).mpr rfl
      · cases typeEligible mt policy (c.get (lit "Content-Type")) with
        | false =>
          rw [if_neg Bool.false_ne_true, agrees_of_empty rfl]
          cases typeEligible mt policy seen <;> simp [hsame]
        | true =>
          rw [if_pos rfl, agrees_of_coding hcoding]
          cases typeEligible mt policy seen <;> simp [hsame]
  · rw [encodes_of_short (Nat.not_le.mp hlong), decide_eq_false hlong, Bool.false_and,
      if_neg Bool.false_ne_true, if_neg Bool.false_ne_true, agrees_of_empty rfl]
    exact iff_of_true rfl (Or.inl (Nat.not_le.mp hlong))

/-- **The strength of a validator** agrees with the encoder exactly for consistent decisions: then the
coding predicted for an acceptable buffered response is empty exactly when its body is delivered
unencoded, and the validator is weak exactly when it is delivered encoded. -/
theorem etag_strength (outer : Outer)
    (hacceptable : (outer.selectETagEncoding mt (completeETagContentType mt h body) body).2 = true) :
    ((predictedCoding mt outer h body = [] ↔ delivered mt digest outer h body = .plain) ∧
      (hasPrefix (validator digest (predictedCoding mt outer h body) body) (lit "W/") = true ↔
        delivered mt digest outer h body = .encoded)) ↔
      outer.Consistent mt (completeETagContentType mt h body) body := by
  cases outer with
  | compress n multiplexed => exact compress_strength mt digest h body n multiplexed hacceptable
  | encodeResponse policy hpolicy coding hcoding multiplexed =>
    exact encodeResponse_strength mt digest h body policy hpolicy coding hcoding multiplexed

end Strength

/-- A response with a type, and its coding announced as a trailer. -/
def trailedHeader : Header :=
  ⟨[(lit "Content-Encoding", [lit "gzip"]), (lit "Trailer", [lit "Content-Encoding"])], by decide⟩

/-- A response with an oddly spelled type. -/
def oddHeader : Header := ⟨[(lit "content-type", [lit "text/plain; charset=utf-8"])], by decide⟩

theorem etag_strength_greeting :
    predictedCoding plainTypes (.compress (negotiatorFor [lit "gzip"]) false) plainHeader (lit "hello") =
      lit "gzip" ∧
    delivered plainTypes (fun _ => lit "00") (.compress (negotiatorFor [lit "gzip"]) false) plainHeader
      (lit "hello") = .encoded := by
  have hcoding : predictedCoding plainTypes (.compress (negotiatorFor [lit "gzip"]) false) plainHeader
      (lit "hello") = lit "gzip" := by decide
  have hagrees := (etag_strength plainTypes (fun _ => lit "00") plainHeader (lit "hello")
    (.compress (negotiatorFor [lit "gzip"]) false) (by decide)).mpr
    (Or.inl ⟨by decide, by decide⟩)
  refine ⟨hcoding, hagrees.2.mp ?_⟩
  rw [hcoding]
  decide

/-- A gzip body whose `Content-Encoding` is announced as a trailer gets a strong validator and is encoded
once more; a body whose type is not spelled canonically gets a strong validator and is encoded. -/
theorem strong_but_encoded :
    (hasPrefix (validator (fun _ => lit "00") (predictedCoding plainTypes
        (.compress (negotiatorFor [lit "gzip"]) false) trailedHeader (lit "hello")) (lit "hello"))
        (lit "W/") = false ∧
      delivered plainTypes (fun _ => lit "00") (.compress (negotiatorFor [lit "gzip"]) false) trailedHeader
        (lit "hello") = .encoded) ∧
    (hasPrefix (validator (fun _ => lit "00") (predictedCoding plainTypes
        (.encodeResponse shortPolicy (by decide) (lit "gzip") (by decide) false) oddHeader (lit "hello")) (lit "hello"))
        (lit "W/") = false ∧
      delivered plainTypes (fun _ => lit "00") (.encodeResponse shortPolicy (by decide) (lit "gzip") (by decide) false)
        oddHeader (lit "hello") = .encoded) := by
  decide +kernel

end Statute.Encoding
