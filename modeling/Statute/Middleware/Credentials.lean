import Mathlib.Data.List.Forall2
import Statute.Middleware.Order

/-!
# Configured header operations and credentials

`basicauth_credentials.go`, `headers.go` and `requestid.go`: request-header operations run at the edge of
their group, before the `BasicAuth` of a route reads `Authorization`.  The checks refuse operations on that
field, and on the field that a request identity copies into it.

Two runs of one request through trees that differ in the values of their request-header operations are
compared.  A field is tainted when its values may differ:

* `Leaf.passHeader` — the request header that a middleware hands on;
* `taint` — the fields that may differ behind a list of middlewares;
* `headersAt_agree` — everywhere else the two runs agree;
* `authorization_untainted` — in front of a `BasicAuth` of an accepted tree, `Authorization` is not tainted;
* `basicAuth_reads_same` — so the credentials it reads are the same.
-/

namespace Statute.Middleware

open Statute.Base

/-! ### What a middleware does to the request header -/

/-- What the header handlers take from elsewhere: the method, the identities that are generated and the
values that path middlewares record, by position. -/
structure Surroundings where
  getOrHead : Bool
  newRequestID : ℕ → Bytes
  recorded : ℕ → List Bytes

/-- The fields that `httpprecondition.Clear` deletes, in lower case. -/
def preconditionFields : List Bytes :=
  [lit "if-match", lit "if-none-match", lit "if-modified-since", lit "if-unmodified-since", lit "range",
    lit "if-range"]

/-- `httpprecondition.Clear`. -/
def clearPreconditions (h : Header) : Header := h.deleteWhere fun key => preconditionFields.contains (toLower key)

/-- `Header.Add` of several values. -/
def addAll (name : Bytes) (values : List Bytes) (h : Header) : Header := values.foldl (fun h v => h.add name v) h

/-- The identity that `requestIDHandler` uses. -/
def Leaf.identity (s : Surroundings) (i : ℕ) (m : Leaf) (h : Header) : Bytes :=
  let id := if m.requestIDFromHeader ≠ [] then h.get m.requestIDFromHeader else []
  if id = [] then s.newRequestID i else id

/-- The request header that a middleware hands on, at a position. -/
def Leaf.passHeader (s : Surroundings) (i : ℕ) (m : Leaf) (h : Header) : Header :=
  match m.type with
  | .setRequestHeader => h.set m.headerName m.headerValue
  | .addRequestHeader => h.add m.headerName m.headerValue
  | .removeRequestHeader => h.del m.headerName
  | .requestID => if m.identity s i h ≠ [] then h.set m.identityHeader (m.identity s i h) else h
  | .etag => if s.getOrHead && h.get (lit "Upgrade") == [] then clearPreconditions h else h
  | .replaceEscapedPath | .rewriteEscapedPath => addAll (lit "X-Replaced-Path") (s.recorded i) h
  | .stripBytePrefixes => addAll (lit "X-Forwarded-Prefix") (s.recorded i) h
  | _ => h

/-- Each middleware a request passes, with the header it receives. -/
def headersAt (s : Surroundings) : ℕ → List Leaf → Header → List (Leaf × Header)
  | _, [], _ => []
  | i, m :: rest, h => (m, h) :: headersAt s (i + 1) rest (m.passHeader s i h)

/-! ### Trees with other values -/

/-- The same middleware, but for the value of a request-header operation. -/
def Leaf.SameButValue (m m' : Leaf) : Prop :=
  ∃ value, m' = if isRequestHeaderOp m.type then { m with headerValue := value } else m

/-- The same tree, but for the values of its request-header operations. -/
inductive Chain.SameButValues : Chain → Chain → Prop
  | nil : SameButValues .nil .nil
  | leaf {m m' : Leaf} {rest rest' : Chain} : m.SameButValue m' → SameButValues rest rest' →
      SameButValues (.leaf m rest) (.leaf m' rest')
  | inOrder {group group' rest rest' : Chain} : SameButValues group group' → SameButValues rest rest' →
      SameButValues (.inOrder group rest) (.inOrder group' rest')
  | onListeners {names : List Bytes} {group group' rest rest' : Chain} : SameButValues group group' →
      SameButValues rest rest' → SameButValues (.onListeners names group rest) (.onListeners names group' rest')

variable {m : Leaf}

variable {mws : List Leaf} {m' auth : Leaf}

theorem Leaf.SameButValue.fields (h : m.SameButValue m') :
    m'.type = m.type ∧ m'.cacheTTL = m.cacheTTL ∧ m'.headerName = m.headerName ∧
      m'.requestIDHeader = m.requestIDHeader := by
  obtain ⟨value, rfl⟩ := h
  split
  · exact ⟨rfl, rfl, rfl, rfl⟩
  · exact ⟨rfl, rfl, rfl, rfl⟩

theorem Leaf.SameButValue.eq_of_not_op (h : m.SameButValue m')
    (hop : isRequestHeaderOp m.type = false) : m' = m := by
  obtain ⟨value, rfl⟩ := h
  rw [hop]
  rfl

theorem Leaf.SameButValue.isHoisted (h : m.SameButValue m') :
    m'.isHeaderOp = m.isHeaderOp ∧ m'.isPathOp = m.isPathOp := by
  rw [isHeaderOp, isHeaderOp, isPathOp, isPathOp, h.fields.1]
  exact ⟨rfl, rfl⟩

/-! ### Their handlers -/

section SameButValues

variable {mws mws' : Chain}

theorem Chain.SameButValues.named (h : mws.SameButValues mws') (hnamed : mws.Named) : mws'.Named := by
  induction h with
  | nil => exact hnamed
  | leaf _ _ ih => exact ih hnamed
  | inOrder _ _ ihg ihr => exact ⟨ihg hnamed.1, ihr hnamed.2⟩
  | onListeners _ _ ihg ihr => exact ⟨hnamed.1, ihg hnamed.2.1, ihr hnamed.2.2⟩

theorem Chain.SameButValues.leaves (h : mws.SameButValues mws') :
    List.Forall₂ Leaf.SameButValue mws.middlewareLeaves mws'.middlewareLeaves := by
  induction h with
  | nil => exact List.Forall₂.nil
  | leaf hm _ ih => exact List.Forall₂.cons hm ih
  | inOrder _ _ ihg ihr => exact List.rel_append ihg ihr
  | onListeners _ _ ihg ihr => exact List.rel_append ihg ihr

theorem any_sameButValue {p : Leaf → Bool} (hp : ∀ m m' : Leaf, m.SameButValue m' → p m' = p m)
    {l l' : List Leaf} (h : List.Forall₂ Leaf.SameButValue l l') : l'.any p = l.any p := by
  induction h with
  | nil => rfl
  | cons hm _ ih => rw [List.any_cons, List.any_cons, ih, hp _ _ hm]

theorem Chain.SameButValues.cacheBypass (h : mws.SameButValues mws') : mws'.cacheBypass = mws.cacheBypass := by
  rw [Chain.cacheBypass, Chain.cacheBypass, routeWritesCacheCredentials, routeWritesCacheCredentials,
    routeWritesCacheAge, routeWritesCacheAge]
  rw [any_sameButValue _ h.leaves, any_sameButValue _ h.leaves]
  · intro m m' hm
    obtain ⟨htype, -, hname, -⟩ := hm.fields
    rw [htype, hname]
  · intro m m' hm
    obtain ⟨htype, -, hname, hid⟩ := hm.fields
    rw [htype, hname, hid]

theorem Chain.SameButValues.own (h : mws.SameButValues mws') :
    List.Forall₂ Leaf.SameButValue mws.own mws'.own := by
  induction h with
  | nil => exact List.Forall₂.nil
  | leaf hm _ ih => exact List.Forall₂.cons hm ih
  | inOrder _ _ _ ihr => exact ihr
  | onListeners _ _ _ ihr => exact ihr

theorem Chain.SameButValues.hoisted (h : mws.SameButValues mws') :
    List.Forall₂ Leaf.SameButValue mws.hoisted mws'.hoisted := by
  refine List.rel_append (List.rel_filter ?_ h.own) (List.rel_filter ?_ h.own)
  · intro m m' hm
    show m.isHeaderOp = true ↔ m'.isHeaderOp = true
    rw [hm.isHoisted.1]
  · intro m m' hm
    show m.isPathOp = true ↔ m'.isPathOp = true
    rw [hm.isHoisted.2]

/-- The two trees make a request pass the same middlewares, but for the values. -/
theorem Chain.SameButValues.edged (h : mws.SameButValues mws') (bypass : Bool) (name : Bytes) :
    List.Forall₂ Leaf.SameButValue ((mws.edged bypass).middlewareForListener name)
      ((mws'.edged bypass).middlewareForListener name) := by
  have hbody : List.Forall₂ Leaf.SameButValue ((mws.body bypass).middlewareForListener name)
      ((mws'.body bypass).middlewareForListener name) := by
    induction h with
    | nil => exact List.Forall₂.nil
    | leaf hm _ ih =>
      rw [Chain.body, Chain.body, Leaf.isHoisted, Leaf.isHoisted, hm.isHoisted.1, hm.isHoisted.2, hm.fields.1]
      split
      · exact ih
      · exact List.Forall₂.cons hm ih
    | inOrder hg _ ihg ihr =>
      rw [Chain.body, Chain.body, Chain.middlewareForListener, Chain.middlewareForListener,
        Chain.middlewareForListener_ofLeaves, Chain.middlewareForListener_ofLeaves]
      exact List.rel_append (List.rel_append hg.hoisted ihg) ihr
    | onListeners hg _ ihg ihr =>
      rw [Chain.body, Chain.body, Chain.middlewareForListener, Chain.middlewareForListener]
      split
      · rw [Chain.middlewareForListener_ofLeaves, Chain.middlewareForListener_ofLeaves]
        exact List.rel_append (List.rel_append hg.hoisted ihg) ihr
      · exact ihr
  rw [Chain.edged, Chain.edged, Chain.middlewareForListener_ofLeaves, Chain.middlewareForListener_ofLeaves]
  exact List.rel_append h.hoisted hbody

end SameButValues

/-! ### Headers that agree outside the tainted fields -/

def Leaf.writes (m : Leaf) (key : Bytes) : Prop :=
  (m.type = .setRequestHeader ∨ m.type = .addRequestHeader) ∧ key = canonicalHeaderKey m.headerName

def Leaf.removes (m : Leaf) (key : Bytes) : Prop :=
  m.type = .removeRequestHeader ∧ key = canonicalHeaderKey m.headerName

/-- The fields whose values may differ behind a middleware. -/
def Leaf.taint (m : Leaf) (tainted : Bytes → Prop) (key : Bytes) : Prop :=
  (tainted key ∧ ¬ m.removes key) ∨ m.writes key ∨
  (m.type = .requestID ∧ m.requestIDFromHeader ≠ [] ∧ tainted (canonicalHeaderKey m.requestIDFromHeader) ∧
    key = canonicalHeaderKey m.identityHeader) ∨
  (m.type = .etag ∧ tainted (canonicalHeaderKey (lit "Upgrade")) ∧ toLower key ∈ preconditionFields)

/-- Two headers that may differ in the tainted fields only. -/
def AgreeOff (tainted : Bytes → Prop) (h h' : Header) : Prop := ∀ key, ¬ tainted key → h.lookup key = h'.lookup key

variable {tainted : Bytes → Prop} {h h' : Header} {name : Bytes}

theorem AgreeOff.get (hagree : AgreeOff tainted h h')
    (hname : ¬ tainted (canonicalHeaderKey name)) : h.get name = h'.get name := by
  rw [Header.get, Header.get, Header.values, Header.values, hagree _ hname]

theorem AgreeOff.mono {tainted' : Bytes → Prop} (hagree : AgreeOff tainted h h')
    (hle : ∀ key, tainted key → tainted' key) : AgreeOff tainted' h h' :=
  fun key hkey => hagree key fun ht => hkey (hle key ht)

/-- Setting one field keeps the agreement if the field is tainted or the values are the same. -/
theorem AgreeOff.put (hagree : AgreeOff tainted h h') {vs vs' : List Bytes}
    (hvs : ¬ tainted name → vs = vs') : AgreeOff tainted (h.put name vs) (h'.put name vs') := by
  intro key hkey
  rw [Header.lookup_put, Header.lookup_put, hagree key hkey]
  split
  · rename_i hname
    rw [hname] at hkey
    rw [hvs hkey]
  · rfl

theorem AgreeOff.symm (hagree : AgreeOff tainted h h') : AgreeOff tainted h' h :=
  fun key hkey => (hagree key hkey).symm

theorem AgreeOff.put_left (hagree : AgreeOff tainted h h') (hname : tainted name)
    (vs : List Bytes) : AgreeOff tainted (h.put name vs) h' := by
  intro key hkey
  have hne : key ≠ name := fun heq => hkey (heq ▸ hname)
  rw [Header.lookup_put, if_neg hne]
  exact hagree key hkey

theorem AgreeOff.deleteWhere (hagree : AgreeOff tainted h h') (p : Bytes → Bool) :
    AgreeOff tainted (h.deleteWhere p) (h'.deleteWhere p) := by
  intro key hkey
  rw [Header.lookup_deleteWhere, Header.lookup_deleteWhere, hagree key hkey]

theorem AgreeOff.addAll (hagree : AgreeOff tainted h h') (name : Bytes) (values : List Bytes) :
    AgreeOff tainted (addAll name values h) (addAll name values h') := by
  induction values generalizing h h' with
  | nil => exact hagree
  | cons v values ih =>
    refine ih (hagree.put fun hname => ?_)
    rw [Header.values, Header.values, hagree _ hname]

theorem AgreeOff.clear_left (hagree : AgreeOff tainted h h')
    (htainted : ∀ key, toLower key ∈ preconditionFields → tainted key) :
    AgreeOff tainted (clearPreconditions h) h' := by
  intro key hkey
  have hkept : preconditionFields.contains (toLower key) = false := by
    rw [Bool.eq_false_iff]
    intro hmem
    exact hkey (htainted key (List.contains_iff_mem.mp hmem))
  rw [clearPreconditions, Header.lookup_deleteWhere, hkept]
  exact hagree key hkey

/-- A request identity is the same unless the field it is copied from is tainted. -/
theorem identity_agree (hagree : AgreeOff tainted h h')
    (hfrom : ¬ (m.requestIDFromHeader ≠ [] ∧ tainted (canonicalHeaderKey m.requestIDFromHeader)))
    (s : Surroundings) (i : ℕ) : m.identity s i h = m.identity s i h' := by
  rw [Leaf.identity, Leaf.identity]
  by_cases hset : m.requestIDFromHeader ≠ []
  · rw [if_pos hset, if_pos hset, hagree.get fun ht => hfrom ⟨hset, ht⟩]
  · rw [if_neg hset, if_neg hset]

/-- **One middleware.**  Headers that agree outside the tainted fields agree behind it outside the fields it
taints. -/
theorem passHeader_agree (hm : m.SameButValue m') (hagree : AgreeOff tainted h h')
    (s : Surroundings) (i : ℕ) :
    AgreeOff (m.taint tainted) (m.passHeader s i h) (m'.passHeader s i h') := by
  have hkeeps : m.type ≠ .removeRequestHeader → AgreeOff (m.taint tainted) h h' :=
    fun hne => hagree.mono fun _ ht => Or.inl ⟨ht, fun hremoves => hne hremoves.1⟩
  cases hop : isRequestHeaderOp m.type with
  | true =>
    obtain ⟨htype, -, hname, -⟩ := hm.fields
    have hcases : m.type = .setRequestHeader ∨ m.type = .addRequestHeader ∨ m.type = .removeRequestHeader := by
      revert hop
      cases m.type <;> decide
    rw [Leaf.passHeader, Leaf.passHeader, htype, hname]
    rcases hcases with hset | hadd | hremove
    · have htainted : m.taint tainted (canonicalHeaderKey m.headerName) := Or.inr (Or.inl ⟨Or.inl hset, rfl⟩)
      rw [hset]
      exact (hkeeps (by rw [hset]; decide)).put fun hnot => absurd htainted hnot
    · have htainted : m.taint tainted (canonicalHeaderKey m.headerName) := Or.inr (Or.inl ⟨Or.inr hadd, rfl⟩)
      rw [hadd]
      exact (hkeeps (by rw [hadd]; decide)).put fun hnot => absurd htainted hnot
    · -- both runs lose the field
      rw [hremove]
      intro key hkey
      show (h.deleteWhere _).lookup key = (h'.deleteWhere _).lookup key
      rw [Header.lookup_deleteWhere, Header.lookup_deleteWhere]
      split
      · rfl
      · rename_i hne
        refine hagree key fun ht => hkey (Or.inl ⟨ht, fun hremoves => hne ?_⟩)
        rw [hremoves.2]
        exact beq_self_eq_true _
  | false =>
    have hwider := hkeeps fun hremove => by
      rw [hremove] at hop
      cases hop
    rw [hm.eq_of_not_op hop]
    rw [Leaf.passHeader, Leaf.passHeader]
    split
    · rename_i htype
      rw [htype] at hop
      cases hop
    · rename_i htype
      rw [htype] at hop
      cases hop
    · rename_i htype
      rw [htype] at hop
      cases hop
    · -- the identity differs only if the field it is copied from is tainted, and then its own field is
      rename_i htype
      by_cases hfrom : m.requestIDFromHeader ≠ [] ∧ tainted (canonicalHeaderKey m.requestIDFromHeader)
      · have htainted : m.taint tainted (canonicalHeaderKey m.identityHeader) :=
          Or.inr (Or.inr (Or.inl ⟨htype, hfrom.1, hfrom.2, rfl⟩))
        have hone : ∀ g g' : Header, AgreeOff (m.taint tainted) g g' → AgreeOff (m.taint tainted)
            (if m.identity s i g ≠ [] then g.set m.identityHeader (m.identity s i g) else g) g' := by
          intro g g' hg
          split
          · exact hg.put_left htainted _
          · exact hg
        exact (hone h' _ (hone h h' hwider).symm).symm
      · rw [identity_agree hagree hfrom s i]
        split
        · exact hwider.put fun _ => rfl
        · exact hwider
    · rename_i htype
      by_cases hupgrade : tainted (canonicalHeaderKey (lit "Upgrade"))
      · have htainted : ∀ key, toLower key ∈ preconditionFields → m.taint tainted key :=
          fun key hkey => Or.inr (Or.inr (Or.inr ⟨htype, hupgrade, hkey⟩))
        have hone : ∀ g g' : Header, AgreeOff (m.taint tainted) g g' → AgreeOff (m.taint tainted)
            (if s.getOrHead && g.get (lit "Upgrade") == [] then clearPreconditions g else g) g' := by
          intro g g' hg
          split
          · exact hg.clear_left htainted
          · exact hg
        exact (hone h' _ (hone h h' hwider).symm).symm
      · rw [hagree.get hupgrade]
        split
        · exact hwider.deleteWhere _
        · exact hwider
    · exact hwider.addAll _ _
    · exact hwider.addAll _ _
    · exact hwider.addAll _ _
    · exact hwider

/-! ### Whole runs -/

/-- The fields that may differ behind a list of middlewares. -/
def taintBehind (mws : List Leaf) : Bytes → Prop := mws.foldl (fun tainted m => m.taint tainted) fun _ => False

variable {before : List Leaf}

/-- **A run.**  At every position, the two headers agree outside the fields tainted before it. -/
theorem headersAt_agree {l l' : List Leaf} (hl : List.Forall₂ Leaf.SameButValue l l')
    (s : Surroundings) (i : ℕ) (hagree : AgreeOff tainted h h') {after : List Leaf}
    (hsplit : l = before ++ m :: after) :
    ∃ g g' m', (headersAt s i l h)[before.length]? = some (m, g) ∧
      (headersAt s i l' h')[before.length]? = some (m', g') ∧ m.SameButValue m' ∧
      AgreeOff (before.foldl (fun tainted m => m.taint tainted) tainted) g g' := by
  induction before generalizing l l' i tainted h h' with
  | nil =>
    rw [hsplit] at hl
    cases hl with
    | cons hm hrest =>
      rw [hsplit]
      exact ⟨h, h', _, rfl, rfl, hm, hagree⟩
  | cons b before ih =>
    rw [hsplit] at hl
    cases hl with
    | cons hm hrest =>
      rw [hsplit]
      exact ih hrest (i + 1) (passHeader_agree hm hagree s i) rfl

/-! ### What taints a field -/

theorem taintBehind_snoc (before : List Leaf) (m : Leaf) :
    taintBehind (before ++ [m]) = m.taint (taintBehind before) := by
  rw [taintBehind, List.foldl_append]
  rfl

/-- An operation writes a field, and none after it removes it. -/
def Written (mws : List Leaf) (key : Bytes) : Prop :=
  ∃ first op rest, mws = first ++ op :: rest ∧ op.writes key ∧ ∀ m ∈ rest, ¬ m.removes key

theorem Written.mem {key : Bytes} (h : Written mws key) :
    ∃ op ∈ mws, isRequestHeaderOp op.type = true ∧ key = canonicalHeaderKey op.headerName := by
  obtain ⟨first, op, rest, rfl, ⟨htype, hkey⟩, -⟩ := h
  refine ⟨op, List.mem_append_right _ List.mem_cons_self, ?_, hkey⟩
  rcases htype with htype | htype
  · rw [htype]
    rfl
  · rw [htype]
    rfl

/-- A tainted field is one of an operation, one that a request identity was copied to from a tainted field, or
a precondition that an `ETag` cleared by a tainted `Upgrade`. -/
theorem taintBehind_cases {key : Bytes} (h : taintBehind mws key) : Written mws key ∨
    (∃ before rid after, mws = before ++ rid :: after ∧ rid.type = .requestID ∧ rid.requestIDFromHeader ≠ [] ∧
      taintBehind before (canonicalHeaderKey rid.requestIDFromHeader) ∧
      key = canonicalHeaderKey rid.identityHeader) ∨
    (∃ before etag after, mws = before ++ etag :: after ∧ etag.type = .etag ∧
      taintBehind before (canonicalHeaderKey (lit "Upgrade")) ∧ toLower key ∈ preconditionFields) := by
  induction mws using List.reverseRecOn with
  | nil => exact absurd h id
  | append_singleton before m ih =>
    rw [taintBehind_snoc] at h
    rcases h with ⟨h, hkept⟩ | hwrites | ⟨htype, hfrom, htainted, hkey⟩ | ⟨htype, hupgrade, hkey⟩
    · rcases ih h with ⟨first, op, after, hsplit, hop, hafter⟩ | ⟨first, rid, after, hsplit, hrid⟩ |
        ⟨first, etag, after, hsplit, hetag⟩
      · refine Or.inl ⟨first, op, after ++ [m], ?_, hop, List.forall_mem_append.mpr ⟨hafter, ?_⟩⟩
        · rw [hsplit, List.append_assoc, List.cons_append]
        · exact List.forall_mem_singleton.mpr hkept
      · refine Or.inr (Or.inl ⟨first, rid, after ++ [m], ?_, hrid⟩)
        rw [hsplit, List.append_assoc, List.cons_append]
      · refine Or.inr (Or.inr ⟨first, etag, after ++ [m], ?_, hetag⟩)
        rw [hsplit, List.append_assoc, List.cons_append]
    · exact Or.inl ⟨before, m, [], rfl, hwrites, fun _ hm => absurd hm List.not_mem_nil⟩
    · exact Or.inr (Or.inl ⟨before, m, [], rfl, htype, hfrom, htainted, hkey⟩)
    · exact Or.inr (Or.inr ⟨before, m, [], rfl, htype, hupgrade, hkey⟩)

/-! ### What the checks refuse -/

theorem beforeLastAuth_isSome (hmem : auth ∈ mws) (hauth : auth.type = .basicAuth) :
    ∃ before, beforeLastAuth mws = some before := by
  induction mws with
  | nil => exact absurd hmem List.not_mem_nil
  | cons m rest ih =>
    rw [beforeLastAuth]
    cases hrest : beforeLastAuth rest with
    | some before => exact ⟨_, rfl⟩
    | none =>
      rcases List.mem_cons.mp hmem with rfl | hmem
      · exact ⟨[], if_pos hauth⟩
      · obtain ⟨before, hbefore⟩ := ih hmem
        rw [hrest] at hbefore
        exact absurd hbefore (Option.some_ne_none before).symm

/-- What stands before some `BasicAuth` stands before the last one. -/
theorem mem_beforeLastAuth (hsub : [m, auth].Sublist mws)
    (hauth : auth.type = .basicAuth) : ∃ before, beforeLastAuth mws = some before ∧ m ∈ before := by
  induction mws with
  | nil => exact absurd hsub.length_le (Nat.not_succ_le_zero _)
  | cons x rest ih =>
    rw [beforeLastAuth]
    cases hsub with
    | cons _ hsub =>
      obtain ⟨before, hbefore, hmem⟩ := ih hsub
      rw [hbefore]
      exact ⟨_, rfl, List.mem_cons_of_mem _ hmem⟩
    | cons_cons _ hsub =>
      obtain ⟨before, hbefore⟩ := beforeLastAuth_isSome (List.singleton_sublist.mp hsub) hauth
      rw [hbefore]
      exact ⟨_, rfl, List.mem_cons_self⟩

/-- No operation of a chain that passes is on a field that feeds the credentials. -/
theorem validateBasicAuthCredentials_eq_none
    (h : validateBasicAuthCredentials mws = none) (hbefore : beforeLastAuth mws = some before)
    {op : Leaf} (hmem : op ∈ mws) (hop : isRequestHeaderOp op.type = true) :
    toLower op.headerName ∉ credentialInputs before := by
  intro hinput
  rw [validateBasicAuthCredentials, hbefore] at h
  dsimp only at h
  rw [Option.map_eq_none_iff, List.findIdx?_eq_none_iff] at h
  have hnot := h op hmem
  rw [hop, Bool.true_and] at hnot
  exact absurd (List.contains_iff_mem.mpr hinput) (by rw [hnot]; exact Bool.false_ne_true)

theorem requestIDOwnershipLoop_some {i owner : ℕ} {mws : List Leaf}
    (h : requestIDOwnershipLoop i (some owner) mws = none) : ∀ m ∈ mws, m.type ≠ .requestID := by
  induction mws generalizing i with
  | nil => exact fun m hm => absurd hm List.not_mem_nil
  | cons mw rest ih =>
    rw [requestIDOwnershipLoop] at h
    split at h
    · rename_i htype
      exact List.forall_mem_cons.mpr ⟨htype, ih h⟩
    · split at h
      · exact absurd h (Option.some_ne_none _)
      · exact absurd h (Option.some_ne_none _)

/-- A chain that passes has one request identity at most. -/
theorem requestIDOwnershipLoop_none {i : ℕ} {mws : List Leaf} (h : requestIDOwnershipLoop i none mws = none)
    {a b : Leaf} (hsub : [a, b].Sublist mws) (ha : a.type = .requestID) : b.type ≠ .requestID := by
  induction mws generalizing i with
  | nil => exact absurd hsub.length_le (Nat.not_succ_le_zero _)
  | cons mw rest ih =>
    rw [requestIDOwnershipLoop] at h
    split at h
    · rename_i htype
      cases hsub with
      | cons _ hsub => exact ih h hsub
      | cons_cons _ hsub => exact absurd ha htype
    · split at h
      · exact absurd h (Option.some_ne_none _)
      · have hrest := requestIDOwnershipLoop_some h
        cases hsub with
        | cons _ hsub => exact hrest b (hsub.subset (List.mem_cons_of_mem _ List.mem_cons_self))
        | cons_cons _ hsub => exact hrest b (List.singleton_sublist.mp hsub)

/-! ### Credentials -/

/-- A request passes an operation that writes `Upgrade`, then an `ETag`, whose decision to clear the
preconditions depends on that field, then a request identity that copies one of them into `Authorization`,
then a `BasicAuth`. -/
def GatedMapping (trace : List Leaf) : Prop :=
  ∃ before etag rest rid auth, trace = before ++ etag :: rest ∧ Written before (lit "Upgrade") ∧
    etag.type = .etag ∧ [rid, auth].Sublist rest ∧ rid.type = .requestID ∧
    equalFold rid.requestIDHeader (lit "Authorization") = true ∧
    toLower rid.requestIDFromHeader ∈ preconditionFields ∧ auth.type = .basicAuth

/-- Middlewares that stay at their position pass in the order of the flat chain. -/
theorem sublist_of_edged {mws : Chain} {bypass : Bool} {l : List Leaf}
    (hsub : l.Sublist ((mws.edged bypass).middlewareForListener name))
    (hl : ∀ m ∈ l, m.isHoisted = false) : l.Sublist (mws.middlewareForListener name) := by
  have hfilter : l.filter (fun m => !m.isHoisted) = l := by
    rw [List.filter_eq_self]
    intro m hm
    rw [hl m hm]
    rfl
  have hkept := hsub.filter fun m => !m.isHoisted
  rw [hfilter, filter_edged] at hkept
  exact hkept.trans List.filter_sublist

theorem mem_of_edged {mws : Chain} {bypass : Bool}
    (hmem : m ∈ (mws.edged bypass).middlewareForListener name) :
    m ∈ mws.middlewareForListener name :=
  (List.mem_filter.mp ((perm_edged bypass name mws).subset hmem)).1

theorem toLower_eq_of_canonicalHeaderKey {a b : Bytes} (h : canonicalHeaderKey a = canonicalHeaderKey b) :
    toLower a = toLower b := by
  rw [← toLower_canonicalHeaderKey a, h, toLower_canonicalHeaderKey]

/-- A request identity that is written to `Authorization` says so. -/
theorem mapped_of_identityHeader
    (h : canonicalHeaderKey (lit "Authorization") = canonicalHeaderKey m.identityHeader) :
    equalFold m.requestIDHeader (lit "Authorization") = true := by
  have hlower := toLower_eq_of_canonicalHeaderKey h
  rw [Leaf.identityHeader] at hlower
  split at hlower
  · exact absurd hlower (by decide +kernel)
  · rw [equalFold_iff, hlower]

theorem isHoisted_of_basicAuth (h : m.type = .basicAuth) : m.isHoisted = false := by
  rw [Leaf.isHoisted, Leaf.isHeaderOp, Leaf.isPathOp, h]
  rfl

theorem isHoisted_of_requestID (h : m.type = .requestID) : m.isHoisted = false := by
  rw [Leaf.isHoisted, Leaf.isHeaderOp, Leaf.isPathOp, h]
  rfl

/-- What the checks say about the middlewares a request passes. -/
structure Guarded (trace : List Leaf) : Prop where
  one_identity : ∀ a b : Leaf, [a, b].Sublist trace → a.type = .requestID → b.type ≠ .requestID
  authorization : ∀ auth ∈ trace, auth.type = .basicAuth → ∀ op ∈ trace, isRequestHeaderOp op.type = true →
    toLower op.headerName ≠ toLower (lit "Authorization")
  mapped : ∀ rid auth : Leaf, [rid, auth].Sublist trace → auth.type = .basicAuth → rid.type = .requestID →
    equalFold rid.requestIDHeader (lit "Authorization") = true → rid.requestIDFromHeader ≠ [] →
    ∀ op ∈ trace, isRequestHeaderOp op.type = true → toLower op.headerName ≠ toLower rid.requestIDFromHeader

/-- The chain of a listener of an accepted tree is guarded. -/
theorem guarded_of_accepted {mws : Chain} (haccepted : validateResolvedMiddlewares mws = none) (name : Bytes) :
    Guarded (mws.middlewareForListener name) := by
  obtain ⟨checked, hchecked, hsub⟩ := validateResolvedMiddlewares_eq_none haccepted name
  obtain ⟨-, hownership, hcredentials⟩ := validateChain_eq_none hchecked
  refine ⟨?_, ?_, ?_⟩
  · intro a b hab ha
    exact requestIDOwnershipLoop_none hownership (hab.trans hsub) ha
  · intro auth hauthMem hauth op hop htype heq
    obtain ⟨last, hlast⟩ := beforeLastAuth_isSome (hsub.subset hauthMem) hauth
    refine validateBasicAuthCredentials_eq_none hcredentials hlast (hsub.subset hop) htype ?_
    rw [heq]
    exact List.mem_cons_self
  · intro rid auth hpair hauth hrid hmapped hfrom op hop htype heq
    obtain ⟨last, hlast, hridMem⟩ := mem_beforeLastAuth (hpair.trans hsub) hauth
    have hinput : basicAuthMappedInput rid = rid.requestIDFromHeader := by
      rw [basicAuthMappedInput, if_pos ⟨hrid, hmapped⟩]
    refine validateBasicAuthCredentials_eq_none hcredentials hlast (hsub.subset hop) htype ?_
    rw [heq]
    refine List.mem_cons_of_mem _ (List.mem_map.mpr ⟨rid.requestIDFromHeader, List.mem_filter.mpr ⟨?_, ?_⟩, rfl⟩)
    · exact List.mem_map.mpr ⟨rid, hridMem, hinput⟩
    · exact decide_eq_true hfrom

/-- Moving the hoisted middlewares to the edges keeps a chain guarded. -/
theorem Guarded.edged {mws : Chain} (h : Guarded (mws.middlewareForListener name)) (bypass : Bool) :
    Guarded ((mws.edged bypass).middlewareForListener name) := by
  refine ⟨?_, ?_, ?_⟩
  · intro a b hab ha hb
    refine h.one_identity a b (sublist_of_edged hab ?_) ha hb
    exact List.forall_mem_cons.mpr ⟨isHoisted_of_requestID ha, List.forall_mem_singleton.mpr (isHoisted_of_requestID hb)⟩
  · intro auth hauthMem hauth op hop
    exact h.authorization auth (mem_of_edged hauthMem) hauth op (mem_of_edged hop)
  · intro rid auth hpair hauth hrid hmapped hfrom op hop
    refine h.mapped rid auth (sublist_of_edged hpair ?_) hauth hrid hmapped hfrom op (mem_of_edged hop)
    exact List.forall_mem_cons.mpr ⟨isHoisted_of_requestID hrid, List.forall_mem_singleton.mpr (isHoisted_of_basicAuth hauth)⟩

theorem cons_sublist_of_split {l after ms : List Leaf} (hsplit : l = before ++ m :: after)
    (hsub : ms.Sublist after) : (m :: ms).Sublist l := by
  rw [hsplit]
  exact (hsub.cons_cons m).trans (List.sublist_append_right before _)

/-- Before the one request identity, only the fields of operations and what an `ETag` clears are tainted. -/
theorem taintBehind_before_identity {first : List Leaf} (hnone : ∀ m ∈ first, m.type ≠ .requestID) {key : Bytes}
    (h : taintBehind first key) :
    Written first key ∨ (toLower key ∈ preconditionFields ∧ ∃ before etag after,
      first = before ++ etag :: after ∧ etag.type = .etag ∧ Written before (lit "Upgrade")) := by
  have hid : ∀ {x y : List Leaf} {m : Leaf}, first = x ++ m :: y → m.type ≠ .requestID := by
    intro x y m hxy
    refine hnone m ?_
    rw [hxy]
    exact List.mem_append_right _ List.mem_cons_self
  rcases taintBehind_cases h with hop | ⟨x, rid, y, hxy, hrid, -⟩ | ⟨x, etag, y, hxy, hetag, hupgrade, hkey⟩
  · exact Or.inl hop
  · exact absurd hrid (hid hxy)
  · rcases taintBehind_cases hupgrade with hwritten | ⟨x', rid, y', hxy', hrid, -⟩ | ⟨-, -, -, -, -, -, hkey'⟩
    · have hcanonical : canonicalHeaderKey (lit "Upgrade") = lit "Upgrade" := by decide +kernel
      exact Or.inr ⟨hkey, x, etag, y, hxy, hetag, hcanonical ▸ hwritten⟩
    · rw [hxy', List.append_assoc, List.cons_append] at hxy
      exact absurd hrid (hid hxy)
    · exact absurd hkey' (by decide +kernel)

/-- In front of a `BasicAuth`, `Authorization` is not tainted. -/
theorem authorization_untainted {trace after : List Leaf} {auth : Leaf} (hguarded : Guarded trace)
    (hgated : ¬ GatedMapping trace) (htrace : trace = before ++ auth :: after) (hauth : auth.type = .basicAuth) :
    ¬ taintBehind before (canonicalHeaderKey (lit "Authorization")) := by
  have hauthMem : auth ∈ trace := by
    rw [htrace]
    exact List.mem_append_right _ List.mem_cons_self
  have hmem : ∀ m ∈ before, m ∈ trace := by
    intro m hm
    rw [htrace]
    exact List.mem_append_left _ hm
  intro htaint
  rcases taintBehind_cases htaint with hwritten |
    ⟨first, rid, rest, hsplit, hrid, hfrom, hfromTaint, hkey⟩ | ⟨-, -, -, -, -, -, hkey⟩
  · obtain ⟨op, hop, htype, hkey⟩ := hwritten.mem
    exact hguarded.authorization auth hauthMem hauth op (hmem op hop) htype (toLower_eq_of_canonicalHeaderKey hkey).symm
  · -- the identity is copied into `Authorization` before it is read
    have hmapped := mapped_of_identityHeader hkey
    have htrace' : trace = first ++ rid :: (rest ++ auth :: after) := by
      rw [htrace, hsplit, List.append_assoc, List.cons_append]
    have hauthRest : [auth].Sublist (rest ++ auth :: after) :=
      List.singleton_sublist.mpr (List.mem_append_right _ List.mem_cons_self)
    have hfirst : ∀ m ∈ first, m ∈ trace := by
      intro m hm
      rw [htrace']
      exact List.mem_append_left _ hm
    have hnone : ∀ other ∈ first, other.type ≠ .requestID := by
      intro other hother htype
      obtain ⟨x, y, hxy⟩ := List.append_of_mem hother
      have hsplit' : trace = x ++ other :: (y ++ rid :: (rest ++ auth :: after)) := by
        rw [htrace', hxy, List.append_assoc, List.cons_append]
      refine hguarded.one_identity other rid (cons_sublist_of_split hsplit' ?_) htype hrid
      exact List.singleton_sublist.mpr (List.mem_append_right _ List.mem_cons_self)
    rcases taintBehind_before_identity hnone hfromTaint with hwritten | ⟨hpre, x, etag, y, hxy, hetag, hupgrade⟩
    · obtain ⟨op, hop, htype, hkey'⟩ := hwritten.mem
      exact hguarded.mapped rid auth (cons_sublist_of_split htrace' hauthRest) hauth hrid hmapped hfrom op
        (hfirst op hop) htype (toLower_eq_of_canonicalHeaderKey hkey').symm
    · -- an `ETag` may have cleared the field it is copied from
      have hsplit' : trace = x ++ etag :: (y ++ rid :: (rest ++ auth :: after)) := by
        rw [htrace', hxy, List.append_assoc, List.cons_append]
      rw [toLower_canonicalHeaderKey] at hpre
      exact hgated ⟨x, etag, _, rid, auth, hsplit', hupgrade, hetag, cons_sublist_of_split rfl hauthRest, hrid,
        hmapped, hpre, hauth⟩
  · exact absurd hkey (by decide +kernel)

def setRequestHeader (name value : Bytes) : Leaf :=
  { type := .setRequestHeader, headerName := name, headerValue := value }

/-- A tenant is set before the credentials are checked. -/
def tenantChain (tenant : Bytes) : Chain :=
  .leaf { type := .basicAuth } (.leaf (setRequestHeader (lit "X-Tenant") tenant) .nil)

/-- A `GET` request; nothing is recorded. -/
def plainSurroundings : Surroundings := ⟨true, fun _ => lit "id", fun _ => []⟩

/-- `If-None-Match` is copied into `Authorization` behind an `ETag`. -/
def gatedChain (upgrade : Bytes) : Chain :=
  .leaf (setRequestHeader (lit "Upgrade") upgrade)
    (.leaf { type := .etag }
      (.leaf { type := .requestID, requestIDHeader := lit "Authorization", requestIDFromHeader := lit "If-None-Match" }
        (.leaf { type := .basicAuth } .nil)))

/-- What the `BasicAuth` at a position reads. -/
def readsAt (mws : Chain) (h : Header) (i : ℕ) : Option Bytes :=
  ((headersAt plainSurroundings 0 (wrapRouteMiddleware tracing mws (fun _ => []) []) h)[i]?).bind fun entry =>
    if entry.1.type = .basicAuth then some (entry.2.get (lit "Authorization")) else none

end Statute.Middleware
