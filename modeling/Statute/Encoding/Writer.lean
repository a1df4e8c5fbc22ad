import Statute.Encoding.Metadata
import Statute.Encoding.Negotiation

/-!
# The writer of `EncodeResponse`

`responseEncodingWriter` holds back the first bytes of a body until it knows whether to encode it: long
enough to sniff a missing type, and long enough for the policy.  The decision may fall inside any write
or only at the end.

* `EncodingWriter`: the writer, with what it handed to the codec and to the underlying writer;
* `choice`: what is decided about a whole body;
* `encodeResponse_boundaries`: the decision and the bytes depend on the body, not on how it is written.

The underlying writer and the codec take what they are handed, and `zstd.NewWriter` without options does
not fail.
-/

namespace Statute.Encoding

open Statute.Base
open Statute.Cache (cacheHeaderValues cacheControlAllows)

/-- The parts of the standard library the writer calls. -/
structure MediaTypes where
  /-- `http.DetectContentType` -/
  detectContentType : Bytes → Bytes
  /-- sniffing reads the first 512 bytes -/
  detect_take : ∀ s, detectContentType (s.take 512) = detectContentType s
  /-- the kind that `mime.ParseMediaType` finds, `none` for an error -/
  parseMediaType : Bytes → Option Bytes

def responseEncodingBodyless (status : ℕ) : Bool := status == 204 || status == 205 || status == 304

def typeEligible (mt : MediaTypes) (policy : EncodingPolicy) (text : Bytes) : Bool :=
  match mt.parseMediaType text with
  | none => false
  | some kind =>
    if policy.includedTypes ≠ [] then policy.includedTypes.contains kind
    else kind != lit "application/grpc" && !policy.excludedTypes.contains kind

def responseEncodingEligible (mt : MediaTypes) (h : Header) (status : ℕ) (policy : EncodingPolicy) : Bool :=
  if status = 206 ∨ (cacheHeaderValues h (lit "Content-Range")).2 = true ∨
      cacheControlAllows h [lit "no-transform"] = false then false
  else if responseEncodingBodyless status = true ∨ h.get (lit "Content-Encoding") ≠ [] then false
  else typeEligible mt policy (h.get (lit "Content-Type"))

/-- `responseEncodingWriter`. -/
structure EncodingWriter where
  header : Header
  status : ℕ := 200
  statusSet : Bool := false
  committed : Bool := false
  hijacked : Bool := false
  multiplexed : Bool := false
  /-- the bytes held back -/
  held : Bytes := []
  /-- there is a codec -/
  encoding : Bool := false
  droppedTrailers : HeaderNameSet := []
  /-- the informational responses that were passed on -/
  interim : List ℕ := []
  /-- the status and header the underlying writer was given -/
  sent : Option (ℕ × Header) := none
  /-- the bytes handed to the codec -/
  encoded : Bytes := []
  /-- the bytes handed to the underlying writer -/
  plain : Bytes := []

namespace EncodingWriter

def writeHeader (w : EncodingWriter) (status : ℕ) : EncodingWriter :=
  if w.committed || w.statusSet || (status == 101 && w.multiplexed) then w
  else if 100 ≤ status ∧ status < 200 then
    let w := { w with interim := w.interim ++ [status] }
    if status = 101 then { w with committed := true, hijacked := true } else w
  else { w with status := status, statusSet := true }

/-- Hand bytes to the codec, or to the underlying writer if there is none. -/
def forward (w : EncodingWriter) (data : Bytes) : EncodingWriter :=
  if w.encoding then { w with encoded := w.encoded ++ data } else { w with plain := w.plain ++ data }

def encodedHeader (coding : Bytes) (h : Header) : Header :=
  (prepareEncodedMetadata (stripCompressionTrailers h).1).set (lit "Content-Encoding") coding

def commit (coding : Bytes) (w : EncodingWriter) (encode : Bool) : EncodingWriter :=
  if w.committed then w
  else
    let w :=
      if encode then
        { w with
          encoding := true
          droppedTrailers := (stripCompressionTrailers w.header).2
          header := encodedHeader coding w.header }
      else w
    let w := { w with committed := true, sent := some (w.status, w.header) }
    if w.held ≠ [] then { w.forward w.held with held := [] } else w

def eligible (mt : MediaTypes) (policy : EncodingPolicy) (w : EncodingWriter) : Bool :=
  responseEncodingEligible mt w.header w.status policy

def write (mt : MediaTypes) (policy : EncodingPolicy) (coding : Bytes) (w : EncodingWriter)
    (data : Bytes) : EncodingWriter :=
  let w := w.writeHeader 200
  if w.committed then w.forward data
  else if w.header.get (lit "Content-Type") = [] ∧
      w.held.length + data.length < max 512 policy.minimumBytes then
    { w with held := w.held ++ data }
  else
    let w :=
      if w.header.get (lit "Content-Type") = [] then
        let sample := w.held.take 512 ++ data.take 512
        { w with header := w.header.set (lit "Content-Type") (mt.detectContentType (sample.take 512)) }
      else w
    if w.eligible mt policy = false then (w.commit coding false).forward data
    else if w.held.length + data.length < policy.minimumBytes then { w with held := w.held ++ data }
    else (w.commit coding true).forward data

def detectContentType (mt : MediaTypes) (w : EncodingWriter) : EncodingWriter :=
  if w.held ≠ [] ∧ w.header.get (lit "Content-Type") = [] then
    { w with header := w.header.set (lit "Content-Type") (mt.detectContentType w.held) }
  else w

/-- `responseEncodingWriter.finish` after the handler returned. -/
def finish (mt : MediaTypes) (policy : EncodingPolicy) (coding : Bytes) (w : EncodingWriter) :
    EncodingWriter :=
  if w.hijacked then w
  else
    let w :=
      if w.committed then w
      else
        let w := w.detectContentType mt
        w.commit coding (decide (policy.minimumBytes ≤ w.held.length) && w.eligible mt policy)
    if w.encoding then
      let (header, dropped) := stripCompressionTrailers w.header
      { w with header := HeaderNameSet.removeFrom (dropped ++ w.droppedTrailers) header }
    else w

end EncodingWriter

/-- A response with a fixed header and status, and the given writes. -/
def encodeResponse (mt : MediaTypes) (policy : EncodingPolicy) (coding : Bytes) (multiplexed : Bool)
    (header : Header) (status : ℕ) (writes : List Bytes) : EncodingWriter :=
  (writes.foldl (EncodingWriter.write mt policy coding)
    (EncodingWriter.writeHeader { header := header, multiplexed := multiplexed } status)).finish
      mt policy coding

/-! ### What is decided about a body -/

/-- The header with the declared type, or else the one of the body. -/
def typedHeader (mt : MediaTypes) (header : Header) (body : Bytes) : Header :=
  if header.get (lit "Content-Type") = [] ∧ body ≠ [] then
    header.set (lit "Content-Type") (mt.detectContentType body)
  else header

/-- Whether a body is encoded: it is long enough, and eligible with its type. -/
def encodes (mt : MediaTypes) (policy : EncodingPolicy) (header : Header) (status : ℕ) (body : Bytes) :
    Bool :=
  decide (policy.minimumBytes ≤ body.length) &&
    responseEncodingEligible mt (typedHeader mt header body) status policy

/-! ### The decision is stable -/

theorem typedHeader_append {mt : MediaTypes} {header : Header} {body : Bytes}
    (h : header.get (lit "Content-Type") ≠ [] ∨ 512 ≤ body.length) (more : Bytes) :
    typedHeader mt header (body ++ more) = typedHeader mt header body := by
  unfold typedHeader
  by_cases htyped : header.get (lit "Content-Type") = []
  · have hlen := h.resolve_left (not_not.mpr htyped)
    have hne : body ≠ [] := by
      intro hnil
      rw [hnil] at hlen
      cases hlen
    have hdetect : mt.detectContentType (body ++ more) = mt.detectContentType body := by
      rw [← mt.detect_take (body ++ more), ← mt.detect_take body, List.take_append_of_le_length hlen]
    rw [if_pos ⟨htyped, by simp [hne]⟩, if_pos ⟨htyped, hne⟩, hdetect]
  · rw [if_neg fun hboth => htyped hboth.1, if_neg fun hboth => htyped hboth.1]

theorem encodes_of_long {mt : MediaTypes} {policy : EncodingPolicy} {header : Header} {status : ℕ}
    {body : Bytes} (h : policy.minimumBytes ≤ body.length) : encodes mt policy header status body =
      responseEncodingEligible mt (typedHeader mt header body) status policy := by
  rw [encodes, decide_eq_true h, Bool.true_and]

/-! ### A committed writer -/

/-- The writer after the decision, with the bytes handed on so far. -/
def decided (coding : Bytes) (multiplexed : Bool) (status : ℕ) (header : Header) (encode : Bool)
    (body : Bytes) : EncodingWriter :=
  let final := if encode then EncodingWriter.encodedHeader coding header else header
  { header := final
    status := status
    statusSet := true
    committed := true
    multiplexed := multiplexed
    encoding := encode
    droppedTrailers := if encode then (stripCompressionTrailers header).2 else []
    sent := some (status, final)
    encoded := if encode then body else []
    plain := if encode then [] else body }

/-- The writer before the decision. -/
def holding (multiplexed : Bool) (status : ℕ) (header : Header) (body : Bytes) : EncodingWriter :=
  { header := header, status := status, statusSet := true, multiplexed := multiplexed, held := body }

theorem commit_holding (coding : Bytes) (multiplexed : Bool) (status : ℕ) (header : Header)
    (encode : Bool) (body : Bytes) : (holding multiplexed status header body).commit coding encode =
      decided coding multiplexed status header encode body := by
  by_cases hbody : body = []
  · subst hbody
    cases encode <;> rfl
  · cases encode <;>
    · unfold EncodingWriter.commit holding
      simp only [Bool.false_eq_true, if_false, if_true, ne_eq, hbody, not_false_eq_true,
        EncodingWriter.forward, List.nil_append]
      rfl

theorem forward_decided (coding : Bytes) (multiplexed : Bool) (status : ℕ) (header : Header)
    (encode : Bool) (body data : Bytes) :
    (decided coding multiplexed status header encode body).forward data =
      decided coding multiplexed status header encode (body ++ data) := by
  cases encode <;> rfl

theorem write_decided (mt : MediaTypes) (policy : EncodingPolicy) (coding : Bytes) (multiplexed : Bool)
    (status : ℕ) (header : Header) (encode : Bool) (body data : Bytes) :
    (decided coding multiplexed status header encode body).write mt policy coding data =
      decided coding multiplexed status header encode (body ++ data) := by
  rw [← forward_decided]
  rfl

/-! ### One write -/

/-- The writer holds the body back, or has decided about it for good. -/
inductive Stage (mt : MediaTypes) (policy : EncodingPolicy) (coding : Bytes) (multiplexed : Bool)
    (header : Header) (status : ℕ) (body : Bytes) : EncodingWriter → Prop where
  | held : Stage mt policy coding multiplexed header status body (holding multiplexed status header body)
  | decided (typed : Header) (encode : Bool)
      (hstable : ∀ more, typedHeader mt header (body ++ more) = typed ∧
        encodes mt policy header status (body ++ more) = encode) :
      Stage mt policy coding multiplexed header status body
        (Encoding.decided coding multiplexed status typed encode body)

section Writes

variable {mt : MediaTypes} {policy : EncodingPolicy} {coding : Bytes} {multiplexed : Bool}
  {header : Header} {status : ℕ}

variable {body : Bytes}

/-- A write that decides: the type is settled, and either the body is not eligible or it is long
enough. -/
theorem decided_stage {typed : Header} {encode : Bool}
    (htype : header.get (lit "Content-Type") ≠ [] ∨ 512 ≤ body.length)
    (htyped : typedHeader mt header body = typed)
    (hencode : responseEncodingEligible mt typed status policy = encode)
    (hdecide : encode = false ∨ policy.minimumBytes ≤ body.length) :
    Stage mt policy coding multiplexed header status body
      (Encoding.decided coding multiplexed status typed encode body) := by
  refine Stage.decided typed encode fun more => ?_
  have hstable : typedHeader mt header (body ++ more) = typed := (typedHeader_append htype more).trans htyped
  refine ⟨hstable, ?_⟩
  rcases hdecide with hnot | hlong
  · rw [encodes, hstable, hencode, hnot, Bool.and_false]
  · rw [encodes_of_long (by rw [List.length_append]; omega), hstable, hencode]

/-- The sample of a write is the front of the body. -/
theorem sample_eq (held data : Bytes) :
    (held.take 512 ++ data.take 512).take 512 = (held ++ data).take 512 := by
  rw [List.take_append, List.take_append, List.take_take, Nat.min_self, List.take_take, List.length_take]
  congr 2
  omega

/-- A write once the type is settled. -/
def settledWrite (mt : MediaTypes) (policy : EncodingPolicy) (coding : Bytes) (multiplexed : Bool)
    (status : ℕ) (typed : Header) (body data : Bytes) : EncodingWriter :=
  if responseEncodingEligible mt typed status policy = false then
    ((holding multiplexed status typed body).commit coding false).forward data
  else if body.length + data.length < policy.minimumBytes then
    holding multiplexed status typed (body ++ data)
  else ((holding multiplexed status typed body).commit coding true).forward data

/-- The cases of a write. -/
theorem write_holding (body data : Bytes) :
    (holding multiplexed status header body).write mt policy coding data =
      if header.get (lit "Content-Type") = [] then
        if body.length + data.length < max 512 policy.minimumBytes then
          holding multiplexed status header (body ++ data)
        else settledWrite mt policy coding multiplexed status (header.set (lit "Content-Type")
          (mt.detectContentType ((body.take 512 ++ data.take 512).take 512))) body data
      else settledWrite mt policy coding multiplexed status header body data := by
  have hstatus : (holding multiplexed status header body).writeHeader 200 =
      holding multiplexed status header body := rfl
  unfold EncodingWriter.write
  rw [hstatus]
  by_cases htype : header.get (lit "Content-Type") = []
  · by_cases hshort : body.length + data.length < max 512 policy.minimumBytes
    · simp only [holding, htype, hshort, Bool.false_eq_true, if_false, if_true, and_self]
    · simp only [holding, htype, hshort, Bool.false_eq_true, if_false, if_true, and_false]
      rfl
  · simp only [holding, htype, Bool.false_eq_true, if_false, false_and]
    rfl

/-- A write after the type is settled holds the body back or decides. -/
theorem settledWrite_stage {data : Bytes} {typed : Header}
    (htyped : typedHeader mt header (body ++ data) = typed)
    (htype : header.get (lit "Content-Type") ≠ [] ∨ 512 ≤ (body ++ data).length)
    (hheld : body.length + data.length < policy.minimumBytes → typed = header) :
    Stage mt policy coding multiplexed header status (body ++ data)
      (settledWrite mt policy coding multiplexed status typed body data) := by
  unfold settledWrite
  by_cases heligible : responseEncodingEligible mt typed status policy = false
  · rw [if_pos heligible, commit_holding, forward_decided]
    exact decided_stage htype htyped heligible (Or.inl rfl)
  rw [if_neg heligible]
  by_cases hshort : body.length + data.length < policy.minimumBytes
  · rw [if_pos hshort, hheld hshort]
    exact Stage.held
  · rw [if_neg hshort, commit_holding, forward_decided]
    refine decided_stage htype htyped (Bool.not_eq_false _ ▸ heligible) (Or.inr ?_)
    rw [List.length_append]
    omega

variable {w : EncodingWriter}

theorem write_stage {data : Bytes} (h : Stage mt policy coding multiplexed header status body w) :
    Stage mt policy coding multiplexed header status (body ++ data) (w.write mt policy coding data) := by
  cases h with
  | decided typed encode hstable =>
    rw [write_decided]
    refine Stage.decided typed encode fun more => ?_
    rw [List.append_assoc]
    exact hstable (data ++ more)
  | held =>
    rw [write_holding]
    by_cases htype : header.get (lit "Content-Type") = []
    · rw [if_pos htype]
      by_cases hshort : body.length + data.length < max 512 policy.minimumBytes
      · rw [if_pos hshort]
        exact Stage.held
      · rw [if_neg hshort]
        have hlong : 512 ≤ (body ++ data).length ∧ ¬ body.length + data.length < policy.minimumBytes := by
          rw [List.length_append]
          omega
        have hne : body ++ data ≠ [] := by
          intro hnil
          rw [hnil] at hlong
          exact absurd hlong.1 (by decide)
        refine settledWrite_stage ?_ (Or.inr hlong.1) fun hshort' => absurd hshort' hlong.2
        rw [typedHeader, if_pos ⟨htype, hne⟩, sample_eq, mt.detect_take]
    · rw [if_neg htype]
      refine settledWrite_stage ?_ (Or.inl htype) fun _ => rfl
      rw [typedHeader, if_neg fun hboth => htype hboth.1]

theorem writes_stage (writes : List Bytes)
    (h : Stage mt policy coding multiplexed header status body w) :
    Stage mt policy coding multiplexed header status (body ++ writes.flatten)
      (writes.foldl (EncodingWriter.write mt policy coding) w) := by
  induction writes generalizing body w with
  | nil =>
    rw [List.flatten_nil, List.append_nil]
    exact h
  | cons data writes ih =>
    rw [List.flatten_cons, ← List.append_assoc, List.foldl_cons]
    exact ih (write_stage h)

/-! ### The end of the response -/

theorem detectContentType_holding (body : Bytes) :
    (holding multiplexed status header body).detectContentType mt =
      holding multiplexed status (typedHeader mt header body) body := by
  unfold EncodingWriter.detectContentType typedHeader
  by_cases hboth : header.get (lit "Content-Type") = [] ∧ body ≠ []
  · rw [if_pos hboth]
    exact if_pos hboth.symm
  · rw [if_neg hboth]
    exact if_neg fun h => hboth h.symm

/-- The end decides about what was held back, and a decision is the one about the whole body. -/
theorem finish_stage (h : Stage mt policy coding multiplexed header status body w) :
    w.finish mt policy coding = (Encoding.decided coding multiplexed status (typedHeader mt header body)
      (encodes mt policy header status body) body).finish mt policy coding := by
  cases h with
  | decided typed encode hstable =>
    have hbody := hstable []
    rw [List.append_nil] at hbody
    rw [hbody.1, hbody.2]
  | held =>
    have hcommit : ((holding multiplexed status header body).detectContentType mt).commit coding
        (decide (policy.minimumBytes ≤ body.length) &&
          ((holding multiplexed status header body).detectContentType mt).eligible mt policy) =
        Encoding.decided coding multiplexed status (typedHeader mt header body)
          (encodes mt policy header status body) body := by
      rw [detectContentType_holding]
      exact commit_holding coding multiplexed status _ _ body
    have hheld : ((holding multiplexed status header body).detectContentType mt).held = body := by
      rw [detectContentType_holding]
      rfl
    unfold EncodingWriter.finish
    simp only [hheld, hcommit]
    rfl

/-- **The whole response** is what is decided about the body. -/
theorem encodeResponse_eq (hstatus : status < 100 ∨ 200 ≤ status) (writes : List Bytes) :
    encodeResponse mt policy coding multiplexed header status writes =
      (Encoding.decided coding multiplexed status (typedHeader mt header writes.flatten)
        (encodes mt policy header status writes.flatten) writes.flatten).finish mt policy coding := by
  have hstart : EncodingWriter.writeHeader { header := header, multiplexed := multiplexed } status =
      holding multiplexed status header [] := by
    have hswitch : (status == 101) = false := by
      rw [beq_eq_false_iff_ne]
      omega
    unfold EncodingWriter.writeHeader
    simp only [hswitch, Bool.false_and, Bool.or_self, Bool.false_eq_true, if_false]
    exact if_neg (by omega)
  have hstage := writes_stage writes
    (Stage.held : Stage mt policy coding multiplexed header status [] _)
  rw [List.nil_append] at hstage
  unfold encodeResponse
  rw [hstart]
  exact finish_stage hstage

theorem finish_decided (mt : MediaTypes) (policy : EncodingPolicy) (coding : Bytes) (multiplexed : Bool)
    (status : ℕ) (typed : Header) (encode : Bool) (body : Bytes) :
    ((Encoding.decided coding multiplexed status typed encode body).finish mt policy coding).encoding =
        encode ∧
      ((Encoding.decided coding multiplexed status typed encode body).finish mt policy coding).encoded =
        (if encode then body else []) ∧
      ((Encoding.decided coding multiplexed status typed encode body).finish mt policy coding).plain =
        if encode then [] else body := by
  cases encode <;> exact ⟨rfl, rfl, rfl⟩

end Writes

/-- Plain text, as the standard library names it. -/
def plainTypes : MediaTypes where
  detectContentType _ := lit "text/plain; charset=utf-8"
  detect_take _ := rfl
  parseMediaType s := if s = lit "text/plain; charset=utf-8" then some (lit "text/plain") else none

/-- A policy for bodies of four bytes and more. -/
def shortPolicy : EncodingPolicy := { encodings := [lit "gzip"], minimumBytes := 4 }

end Statute.Encoding
