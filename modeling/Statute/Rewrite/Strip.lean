import Statute.Rewrite.Coherent

/-!
# What stripping does to the escaping

A prefix is measured in decoded bytes and cut off in octets of the escaped path, so what follows it
should go on as it was written.  Two rules of the code get in the way.  `stripPathPrefix` drops a raw
remainder that is equal to the decoded one, and the default escaping then escapes bytes that were
written plainly.  `stripRequestPrefixes` roots the two forms of the path separately, so that behind an
escaped slash they no longer agree and the raw form is given up.

* `StripKeepsEscaping`: the escaped path after `StripPrefix` is a tail of the one before;
* `SlashesKept`: no escaped slash after a removed byte prefix, the first one apart, becomes plain;
* `strip_escaping`: when exactly each of them holds.
-/

namespace Statute.Rewrite

open Statute.Base

/-- The URL is as `net/url` parses it: `RawPath` is empty or a valid encoding of `Path`. -/
def Parsed (u : Url) : Prop :=
  u.rawPath = [] ∨ validEncodedPath u.rawPath = true ∧ unescape u.rawPath = some u.path

/-- The octets of the escaped path. -/
def escapedOctets (u : Url) : List Octet := (octets u.escapedPath).getD []

def EscapedSlash (t : Octet) : Prop := t.isEscaped = true ∧ t.value = ch '/'

/-- The escaped path after the prefix goes on as it was written, behind a plain boundary slash. -/
def StripKeepsEscaping (u : Url) (pre : Bytes) : Prop :=
  (stripPathPrefix u pre).escapedPath = ch '/' :: octetText ((escapedOctets u).drop (pre.length + 1))

/-- How many decoded bytes `StripBytePrefixes` removes. -/
def removedLength (prefixes : List Bytes) (path : Bytes) : ℕ :=
  ((prefixes.find? fun pre => hasPrefix path pre).map List.length).getD 0

def lastOf {α : Type} (xs : List α) (k : ℕ) : List α := xs.drop (xs.length - k)

/-- No escaped slash among the octets from `n` on, the first of them apart, is forwarded as a plain
slash. -/
def SlashesKept (u out : Url) (n : ℕ) : Prop :=
  ∀ i t, ((escapedOctets u).drop n)[i + 1]? = some t → EscapedSlash t →
    (lastOf (escapedOctets out) ((escapedOctets u).drop n).length)[i + 1]? ≠ some (.plain (ch '/'))

/-! ### The octets of the escaped path -/

variable {u : Url} {ts : List Octet}

theorem escapedOctets_eq (hwf : ∀ t ∈ ts, t.WellFormed) (h : u.escapedPath = octetText ts) :
    escapedOctets u = ts := by
  rw [escapedOctets, h, octets_octetText hwf]
  rfl

theorem escapedOctets_spec (u : Url) :
    u.escapedPath = octetText (escapedOctets u) ∧ (∀ t ∈ escapedOctets u, t.WellFormed) ∧
      octetValues (escapedOctets u) = u.path := by
  obtain ⟨ts, htext, hwf, hvalues⟩ := exists_octets (unescape_escapedPath u.path u.rawPath)
  rw [escapedOctets_eq hwf htext]
  exact ⟨htext, hwf, hvalues⟩

/-- A valid raw path is the escaped path. -/
theorem escapedPath_of_raw (hne : u.rawPath ≠ []) (hvalid : validEncodedPath u.rawPath = true)
    (hdecodes : unescape u.rawPath = some u.path) : u.escapedPath = u.rawPath :=
  if_pos ⟨hne, hvalid, hdecodes⟩

/-- The escaped path of a path with a slash is a valid raw path or the default. -/
theorem escapedPath_cases (hslash : ch '/' ∈ u.path) :
    (u.escapedPath = u.rawPath ∧ u.rawPath ≠ [] ∧ validEncodedPath u.rawPath = true ∧
      unescape u.rawPath = some u.path) ∨ u.escapedPath = escapePath u.path := by
  have hstar : u.path ≠ lit "*" := by
    intro hstar
    rw [hstar] at hslash
    exact absurd hslash (by decide)
  by_cases hraw : u.rawPath ≠ [] ∧ validEncodedPath u.rawPath = true ∧ unescape u.rawPath = some u.path
  · exact Or.inl ⟨if_pos hraw, hraw⟩
  · exact Or.inr ((if_neg hraw).trans (if_neg hstar))

/-- Without a raw path that decodes to it, a path with a slash is escaped by default. -/
theorem escapedPath_of_slash (hraw : u.rawPath = [] ∨ unescape u.rawPath ≠ some u.path)
    (hslash : ch '/' ∈ u.path) : u.escapedPath = escapePath u.path :=
  (escapedPath_cases hslash).resolve_left fun h => hraw.elim h.2.1 (· h.2.2.2)

theorem Rooted.slash_mem {p : Bytes} (h : Rooted p) : ch '/' ∈ p := by
  obtain ⟨s, rfl⟩ := h
  exact List.mem_cons_self

theorem escapedOctets_of_slash (hraw : u.rawPath = [] ∨ unescape u.rawPath ≠ some u.path)
    (hslash : ch '/' ∈ u.path) : escapedOctets u = u.path.map pathOctet := by
  refine escapedOctets_eq (map_pathOctet_wellFormed u.path) ?_
  rw [escapedPath_of_slash hraw hslash, escapePath_eq]

theorem pathOctet_not_escapedSlash (c : UInt8) : ¬ EscapedSlash (pathOctet c) := by
  rintro ⟨hescaped, hvalue⟩
  rw [pathOctet_isEscaped] at hescaped
  rw [pathOctet_value] at hvalue
  rw [hvalue] at hescaped
  cases hescaped

theorem escapePath_slash (s : Bytes) : escapePath (ch '/' :: s) = ch '/' :: escapePath s := by
  rw [escapePath_eq, escapePath_eq, List.map_cons, octetText_cons]
  rfl

/-- What follows `n` octets of a valid text is valid. -/
theorem validEncodedPath_drop (h : validEncodedPath (octetText ts) = true) (n : ℕ) :
    validEncodedPath (octetText (ts.drop n)) = true := by
  rw [← List.take_append_drop n ts, octetText_append, validEncodedPath, List.all_append,
    Bool.and_eq_true] at h
  exact h.2

theorem validEncodedPath_slash {s : Bytes} (h : validEncodedPath s = true) :
    validEncodedPath (ch '/' :: s) = true := by
  rw [validEncodedPath, List.all_cons, Bool.and_eq_true]
  exact ⟨by decide, h⟩

/-! ### `StripPrefix` -/

theorem stripPathPrefix_eq {pre s : Bytes} (hpath : u.path = pre ++ ch '/' :: s) :
    stripPathPrefix u pre = { u with
      path := ch '/' :: s
      rawPath := if u.rawPath ≠ [] then
        if strippedRawRemainder u.rawPath pre.length = ch '/' :: s then []
        else strippedRawRemainder u.rawPath pre.length
      else u.rawPath } := by
  have hne : u.path ≠ pre := by
    intro h
    rw [h] at hpath
    have hlen := congrArg List.length hpath
    rw [List.length_append, List.length_cons] at hlen
    omega
  have hprefix : hasPrefix u.path (pre ++ lit "/") = true := by
    rw [hasPrefix_iff, hpath]
    exact ⟨s, by rw [List.append_assoc]; rfl⟩
  have hdrop : u.path.drop pre.length = ch '/' :: s := by rw [hpath, List.drop_left]
  unfold stripPathPrefix
  rw [if_neg hne, if_pos hprefix]
  simp only [hdrop]
  split <;> rfl

/-- **`StripPrefix`** keeps the escaping of what follows the prefix unless the raw remainder has no
escape and holds a byte that the default escaping would escape. -/
theorem stripKeepsEscaping_iff {pre : Bytes} (hu : Parsed u)
    (hpre : hasPrefix u.path (pre ++ lit "/") = true) :
    StripKeepsEscaping u pre ↔ u.rawPath = [] ∨
      (∃ t ∈ (escapedOctets u).drop (pre.length + 1), t.isEscaped = true) ∨
      ∀ c ∈ u.path.drop (pre.length + 1), shouldEscapePath c = false := by
  obtain ⟨s, hpath⟩ := hasPrefix_slash hpre
  have hdropped : u.path.drop pre.length = ch '/' :: s := by rw [hpath, List.drop_left]
  obtain ⟨htext, hwf, hvalues⟩ := escapedOctets_spec u
  rw [← hvalues] at hdropped
  obtain ⟨t, us, hdrop, ht, hus⟩ := drop_octets hdropped
  have hafter : (escapedOctets u).drop (pre.length + 1) = us := by
    rw [← List.drop_drop, hdrop]
    rfl
  have hrest : u.path.drop (pre.length + 1) = s := by
    rw [← hvalues, octetValues, ← List.map_drop, hafter]
    exact hus
  rw [StripKeepsEscaping, hafter, hrest, stripPathPrefix_eq hpath]
  by_cases hraw : u.rawPath = []
  · -- both escaped paths are the default ones
    have hslash : ch '/' ∈ u.path := by
      rw [hpath]
      exact List.mem_append_right _ List.mem_cons_self
    have htail : us = s.map pathOctet := by
      rw [← hafter, ← hrest, escapedOctets_of_slash (Or.inl hraw) hslash, List.map_drop]
    refine iff_of_true ?_ (Or.inl hraw)
    rw [escapedPath_of_slash (Or.inl (by simp [hraw])) List.mem_cons_self, escapePath_slash,
      escapePath_eq, htail]
  obtain ⟨hvalid, hdecodes⟩ := hu.resolve_left hraw
  rw [escapedPath_of_raw hraw hvalid hdecodes] at htext
  have hremainder : strippedRawRemainder u.rawPath pre.length = ch '/' :: octetText us := by
    rw [htext, strippedRawRemainder_octetText hwf hdrop ht]
    rfl
  have hcanonical := octetText_eq_octetValues_iff us
  rw [hus] at hcanonical
  simp only [ne_eq, hraw, not_false_eq_true, if_true, hremainder, List.cons.injEq, true_and, false_or]
  by_cases heq : octetText us = s
  · -- the raw remainder is dropped, and the default escaping decides
    have hplain := hcanonical.mp heq
    rw [if_pos heq, escapedPath_of_slash (Or.inl rfl) List.mem_cons_self, escapePath_slash, heq,
      List.cons.injEq, escapePath_eq_self_iff]
    refine ⟨fun h => Or.inr h.2, fun h => ⟨rfl, h.resolve_left ?_⟩⟩
    rintro ⟨t, ht, hescaped⟩
    exact absurd (hplain t ht) (by simp [hescaped])
  · have huwf : ∀ t ∈ us, t.WellFormed := fun t ht =>
      hwf t (List.mem_of_mem_drop (hdrop ▸ List.mem_cons_of_mem _ ht))
    have hdecodes' := octetText_slash_decodes huwf
    rw [hus] at hdecodes'
    have hvalid' : validEncodedPath (ch '/' :: octetText us) = true := by
      rw [htext] at hvalid
      rw [← hafter]
      exact validEncodedPath_slash (validEncodedPath_drop hvalid _)
    refine iff_of_true ?_ (Or.inl ?_)
    · rw [if_neg heq]
      exact escapedPath_of_raw (by simp) hvalid' hdecodes'
    · by_contra hnone
      refine heq (hcanonical.mpr fun t ht => ?_)
      rw [← Bool.not_eq_true]
      exact fun hescaped => hnone ⟨t, ht, hescaped⟩

/-! ### `StripBytePrefixes` -/

/-- Cleaning that leaves the path leaves how it is escaped. -/
theorem joinPath_escapedPath (hrooted : Rooted u.escapedPath) (hsame : u.joinPath.path = u.path) :
    u.joinPath.escapedPath = u.escapedPath := by
  have hdecodes : unescape u.escapedPath = some u.path := unescape_escapedPath u.path u.rawPath
  have hpath : Rooted u.path := hrooted.decodes hdecodes
  obtain ⟨e, he⟩ := hrooted
  rw [he] at hdecodes
  obtain ⟨q, hq, hkept⟩ := cleanSlash_spec hdecodes
  have hjoin : u.joinPath = u.setPath (cleanSlash (ch '/' :: e)) := by
    unfold Url.joinPath
    simp only [he]
    rw [if_pos (by simp [hasPrefix, lit, ch])]
  have hq' : q = u.path := by
    rw [← hsame, hjoin, Url.setPath, hq]
  have hclean := hkept (by rw [hq'])
  rw [hjoin, hclean, Url.setPath, hdecodes, ← he]
  simp only
  by_cases hdefault : u.escapedPath = escapePath u.path
  · rw [if_pos hdefault, hdefault]
    exact escapedPath_of_slash (Or.inl rfl) hpath.slash_mem
  · obtain ⟨hraw, hne, hvalid, hdec⟩ := (escapedPath_cases hpath.slash_mem).resolve_right hdefault
    rw [if_neg hdefault, hraw]
    exact escapedPath_of_raw hne hvalid hdec

variable {force : Bool}

/-- What `StripBytePrefixes` forwards after it removed a prefix: nothing more, or the cleaned form of
the rooted remainder, which has the same path. -/
theorem stripped_next {m : PathPolicy} {prefixes : List Bytes} {r out : Request}
    {pre tail : Bytes} (hkind : m.kind = .stripBytePrefixes prefixes force)
    (hfind : (prefixes.find? fun pre => hasPrefix r.url.path pre) = some pre)
    (hraw : r.url.rawPath ≠ [])
    (htail : rawTailFromDecodedOffset r.url.rawPath pre.length = some tail)
    (hout : requestPathHandler m r = .next out) :
    ∃ u : Url, u.path = rootRequestPath (r.url.path.drop pre.length) force ∧
      u.rawPath = rootRequestPath tail force ∧
      (u.path = [] ∨ out.url = u.joinPath ∧ u.joinPath.path = u.path) := by
  refine ⟨{ r.url with
    path := rootRequestPath (r.url.path.drop pre.length) force
    rawPath := rootRequestPath tail force }, rfl, rfl, ?_⟩
  have hskips : ∀ current, m.skips current = false := by
    intro current
    rw [PathPolicy.skips, hkind]
  unfold requestPathHandler at hout
  simp only [hskips, Bool.false_eq_true, if_false, applyRequestPath, hkind, stripRequestPrefixes, hfind,
    ne_eq, hraw, not_false_eq_true, if_true, htail, requestPathNormalized] at hout
  by_cases hempty : rootRequestPath (r.url.path.drop pre.length) force = []
  · exact Or.inl hempty
  rw [if_neg hempty] at hout
  refine Or.inr ?_
  split at hout
  · rename_i url heq
    cases hout
    rw [Prod.mk.injEq, decide_eq_true_eq] at heq
    exact ⟨heq.2.symm, heq.1.symm⟩
  · cases hout

theorem lastOf_append {α : Type} (xs ys : List α) : lastOf (xs ++ ys) ys.length = ys := by
  rw [lastOf, List.length_append, Nat.add_sub_cancel, List.drop_left]

/-- Octets that are forwarded as they were keep their slashes. -/
theorem SlashesKept.of_lastOf {out : Url} {n : ℕ}
    (h : lastOf (escapedOctets out) ((escapedOctets u).drop n).length = (escapedOctets u).drop n) :
    SlashesKept u out n := by
  intro i t ht hslash
  rw [h, ht]
  intro hplain
  rw [Option.some.inj hplain] at hslash
  exact absurd hslash.1 (by simp [Octet.isEscaped])

/-- Octets without an escaped slash have none to lose. -/
theorem SlashesKept.of_none {out : Url} {n : ℕ}
    (h : ∀ t ∈ ((escapedOctets u).drop n).tail, ¬ EscapedSlash t) : SlashesKept u out n := by
  intro i t ht hslash
  rw [← List.getElem?_tail] at ht
  exact absurd hslash (h t (List.mem_of_getElem? ht))

/-- A text whose first octet is no escaped slash starts with a slash if it decodes to one that
does. -/
theorem octetText_rooted (h : ∀ t ∈ ts.head?, ¬ EscapedSlash t)
    (hrooted : Rooted (octetValues ts)) : Rooted (octetText ts) := by
  obtain ⟨s, hs⟩ := hrooted
  cases ts with
  | nil => exact absurd hs (by simp [octetValues])
  | cons t ts =>
    have hvalue : t.value = ch '/' := (List.cons.inj hs).1
    cases t with
    | plain c =>
      rw [show c = ch '/' from hvalue]
      exact ⟨octetText ts, rfl⟩
    | escaped a b => exact absurd ⟨rfl, hvalue⟩ (h _ rfl)

theorem escapedSlash_text {t : Octet} (h : EscapedSlash t) (ts : List Octet) :
    ¬ Rooted (octetText (t :: ts)) := by
  rintro ⟨s, hs⟩
  cases t with
  | plain c => exact absurd h.1 (by simp [Octet.isEscaped])
  | escaped a b => exact absurd (List.cons.inj hs).1 (by decide)

/-- A default escaped path has no escaped slash. -/
theorem not_escapedSlash_of_raw_nil (hraw : u.rawPath = []) :
    ∀ t ∈ escapedOctets u, ¬ EscapedSlash t := by
  intro t ht hslash
  by_cases hmem : ch '/' ∈ u.path
  · rw [escapedOctets_of_slash (Or.inl hraw) hmem] at ht
    obtain ⟨c, -, rfl⟩ := List.mem_map.mp ht
    exact pathOctet_not_escapedSlash c hslash
  · refine hmem ?_
    rw [← (escapedOctets_spec u).2.2, ← hslash.2]
    exact List.mem_map_of_mem ht

/-- A remainder behind an escaped slash is forwarded with the default escaping. -/
theorem forwarded_default {t : Octet} (hwf : ∀ o ∈ t :: ts, o.WellFormed) (ht : EscapedSlash t)
    (hpath : u.path = rootRequestPath (octetValues (t :: ts)) force)
    (hraw : u.rawPath = rootRequestPath (octetText (t :: ts)) force)
    (hsame : u.joinPath.path = u.path) :
    escapedOctets u.joinPath = (octetValues (t :: ts)).map pathOctet := by
  have hrooted : Rooted (octetValues (t :: ts)) := ⟨octetValues ts, by rw [← ht.2]; rfl⟩
  rw [rootRequestPath_of_rooted hrooted] at hpath
  rw [rootRequestPath_of_not_rooted (escapedSlash_text ht ts)
    (Or.inl (octetText_ne_nil (List.cons_ne_nil t ts)))] at hraw
  have hdisagree : unescape u.rawPath ≠ some u.path := by
    rw [hraw, hpath, unescape_slash_cons (unescape_octetText hwf)]
    intro heq
    have hlen := congrArg List.length (Option.some.inj heq)
    rw [List.length_cons] at hlen
    omega
  have hslash : ch '/' ∈ u.path := by
    rw [hpath]
    exact hrooted.slash_mem
  have hescaped := escapedPath_of_slash (Or.inr hdisagree) hslash
  have hfront : Rooted u.escapedPath := by
    obtain ⟨s, hs⟩ := hrooted
    rw [hescaped, hpath, hs, escapePath_slash]
    exact ⟨escapePath s, rfl⟩
  refine escapedOctets_eq (map_pathOctet_wellFormed _) ?_
  rw [joinPath_escapedPath hfront hsame, hescaped, escapePath_eq, hpath]

/-- Any other remainder is forwarded as it was written. -/
theorem forwarded_written (hne : ts ≠ []) (hwf : ∀ t ∈ ts, t.WellFormed)
    (hvalid : validEncodedPath (octetText ts) = true) (hhead : ∀ t ∈ ts.head?, ¬ EscapedSlash t)
    (hpath : u.path = rootRequestPath (octetValues ts) force)
    (hraw : u.rawPath = rootRequestPath (octetText ts) force) (hsame : u.joinPath.path = u.path) :
    lastOf (escapedOctets u.joinPath) ts.length = ts := by
  have hdecodes := unescape_octetText hwf
  have hagree := rootRequestPath_decodes hdecodes (octetText_rooted hhead) force
  rw [← hpath, ← hraw] at hagree
  -- the raw form is the text itself or the text behind a slash
  obtain ⟨front, hfront, htext⟩ : ∃ front : List Octet,
      (front = [] ∨ front = [.plain (ch '/')]) ∧ u.rawPath = octetText (front ++ ts) := by
    by_cases hr : Rooted (octetText ts)
    · exact ⟨[], Or.inl rfl, by rw [hraw, rootRequestPath_of_rooted hr]; rfl⟩
    · refine ⟨[.plain (ch '/')], Or.inr rfl, ?_⟩
      rw [hraw, rootRequestPath_of_not_rooted hr (Or.inl (octetText_ne_nil hne))]
      rfl
  have hwf' : ∀ t ∈ front ++ ts, t.WellFormed := by
    intro t ht
    rcases List.mem_append.mp ht with hin | hin
    · rcases hfront with rfl | rfl
      · exact absurd hin List.not_mem_nil
      · rw [List.mem_singleton.mp hin]
        show ch '/' ≠ ch '%'
        decide
    · exact hwf t hin
  have hvalid' : validEncodedPath u.rawPath = true := by
    rw [htext]
    rcases hfront with rfl | rfl
    · exact hvalid
    · exact validEncodedPath_slash hvalid
  have hrooted : Rooted u.rawPath := by
    rw [hraw]
    refine (rootRequestPath_rooted (octetText ts) force).resolve_left fun hnil => ?_
    exact octetText_ne_nil hne (rootRequestPath_eq_nil hnil).1
  have hne' : u.rawPath ≠ [] := by
    obtain ⟨s, hs⟩ := hrooted
    rw [hs]
    exact List.cons_ne_nil _ s
  have hescaped := escapedPath_of_raw hne' hvalid' hagree
  have hout : escapedOctets u.joinPath = front ++ ts := by
    refine escapedOctets_eq hwf' ?_
    rw [joinPath_escapedPath (by rw [hescaped]; exact hrooted) hsame, hescaped, htext]
  rw [hout, lastOf_append]

/-- With the default escaping every slash is plain. -/
theorem slashesKept_default {out : Url} {n : ℕ} {t : Octet}
    (hafter : (escapedOctets u).drop n = t :: ts)
    (hout : escapedOctets out = (octetValues (t :: ts)).map pathOctet) :
    SlashesKept u out n ↔ ∀ o ∈ ts, ¬ EscapedSlash o := by
  constructor
  · intro hkept o ho hslash
    obtain ⟨i, hi⟩ := List.mem_iff_getElem?.mp ho
    refine hkept i o (by rw [hafter]; exact hi) hslash ?_
    rw [hafter, hout, lastOf, List.length_map, octetValues, List.length_map, Nat.sub_self,
      List.drop_zero, List.map_map, List.getElem?_map, List.getElem?_cons_succ, hi]
    show some (pathOctet o.value) = _
    rw [hslash.2]
    decide
  · intro hnone
    refine SlashesKept.of_none ?_
    rw [hafter]
    exact hnone

/-- **`StripBytePrefixes`** forwards an escaped slash as a plain one exactly when the remainder starts
with an escaped slash and has another one. -/
theorem slashesKept_iff {m : PathPolicy} {prefixes : List Bytes} {r out : Request}
    (hkind : m.kind = .stripBytePrefixes prefixes force) (hu : Parsed r.url)
    (hout : requestPathHandler m r = .next out) :
    SlashesKept r.url out.url (removedLength prefixes r.url.path) ↔
      (prefixes.find? fun pre => hasPrefix r.url.path pre) = none ∨
      ¬ ((∃ t ∈ ((escapedOctets r.url).drop (removedLength prefixes r.url.path)).head?, EscapedSlash t) ∧
        ∃ t ∈ ((escapedOctets r.url).drop (removedLength prefixes r.url.path)).tail, EscapedSlash t) := by
  cases hfind : prefixes.find? fun pre => hasPrefix r.url.path pre with
  | none =>
    have hn : removedLength prefixes r.url.path = 0 := by rw [removedLength, hfind]; rfl
    have hsame : out = r := by
      unfold requestPathHandler at hout
      simp only [PathPolicy.skips, hkind, Bool.false_eq_true, if_false, applyRequestPath,
        stripRequestPrefixes, hfind] at hout
      cases hout
      rfl
    refine iff_of_true (SlashesKept.of_lastOf ?_) (Or.inl rfl)
    rw [hn, hsame, List.drop_zero, lastOf, Nat.sub_self, List.drop_zero]
  | some pre =>
    have hn : removedLength prefixes r.url.path = pre.length := by rw [removedLength, hfind]; rfl
    rw [hn]
    by_cases hraw : r.url.rawPath = []
    · have hnone := not_escapedSlash_of_raw_nil hraw
      refine iff_of_true (SlashesKept.of_none fun t ht => ?_) (Or.inr ?_)
      · exact hnone t (List.mem_of_mem_drop (List.mem_of_mem_tail ht))
      · rintro ⟨-, t, ht, hslash⟩
        exact hnone t (List.mem_of_mem_drop (List.mem_of_mem_tail ht)) hslash
    obtain ⟨hvalid, hdecodes⟩ := hu.resolve_left hraw
    obtain ⟨htext, hwf, hvalues⟩ := escapedOctets_spec r.url
    rw [escapedPath_of_raw hraw hvalid hdecodes] at htext
    have hlen : pre.length ≤ (escapedOctets r.url).length := by
      have hprefix : hasPrefix r.url.path pre = true := List.find?_some hfind
      rw [hasPrefix_iff] at hprefix
      have hle := hprefix.length_le
      rw [← hvalues, octetValues, List.length_map] at hle
      exact hle
    have htail := rawTail_octetText hwf hlen
    rw [← htext] at htail
    obtain ⟨u, hpath, huraw, hnext⟩ := stripped_next hkind hfind hraw htail hout
    have hdropped : r.url.path.drop pre.length = octetValues ((escapedOctets r.url).drop pre.length) := by
      rw [← hvalues, octetValues, octetValues, List.map_drop]
    rw [hdropped] at hpath
    have hwf' : ∀ t ∈ (escapedOctets r.url).drop pre.length, t.WellFormed :=
      fun t ht => hwf t (List.mem_of_mem_drop ht)
    have hvalid' := validEncodedPath_drop (htext ▸ hvalid) pre.length
    cases hafter : (escapedOctets r.url).drop pre.length with
    | nil =>
      refine iff_of_true (SlashesKept.of_none ?_) (Or.inr ?_)
      · rw [hafter]
        exact fun t ht => absurd ht List.not_mem_nil
      · rintro ⟨-, t, ht, -⟩
        exact absurd ht List.not_mem_nil
    | cons t ts =>
      rw [hafter] at hpath huraw hwf' hvalid'
      obtain ⟨hjoin, hsame⟩ := hnext.resolve_left fun hnil =>
        absurd (rootRequestPath_eq_nil (hpath.symm.trans hnil)).1 (by simp [octetValues])
      by_cases hhead : EscapedSlash t
      · -- every slash is forwarded plainly
        have hforwarded := forwarded_default hwf' hhead hpath huraw hsame
        rw [hjoin, slashesKept_default hafter hforwarded]
        constructor
        · intro hnone
          exact Or.inr fun hboth => hboth.2.elim fun o ho => hnone o ho.1 ho.2
        · intro hcond o ho hslash
          exact (hcond.resolve_left (by simp)) ⟨⟨t, rfl, hhead⟩, o, ho, hslash⟩
      · have hhead' : ∀ o ∈ (t :: ts).head?, ¬ EscapedSlash o := by
          intro o ho
          rw [← Option.some.inj (Option.mem_def.mp ho)]
          exact hhead
        have hforwarded := forwarded_written (List.cons_ne_nil t ts) hwf' hvalid' hhead' hpath huraw hsame
        refine iff_of_true (SlashesKept.of_lastOf ?_) (Or.inr ?_)
        · rw [hafter, hjoin]
          exact hforwarded
        · rintro ⟨⟨o, ho, hslash⟩, -⟩
          exact hhead' o ho hslash

/-- **Stripping and escaping.**  `StripPrefix` keeps the escaping of what follows the prefix exactly
when there is no raw path, the raw remainder has an escape, or no byte of it is one the default
escaping escapes; and `StripBytePrefixes` forwards no escaped slash as a plain one, the boundary apart,
exactly when the remainder does not start with an escaped slash that another one follows. -/
theorem strip_escaping (u : Url) (pre : Bytes) (hu : Parsed u)
    (hpre : hasPrefix u.path (pre ++ lit "/") = true) (m : PathPolicy) (prefixes : List Bytes)
    (force : Bool) (hkind : m.kind = .stripBytePrefixes prefixes force) (r out : Request)
    (hr : Parsed r.url) (hout : requestPathHandler m r = .next out) :
    (StripKeepsEscaping u pre ↔ u.rawPath = [] ∨
      (∃ t ∈ (escapedOctets u).drop (pre.length + 1), t.isEscaped = true) ∨
      ∀ c ∈ u.path.drop (pre.length + 1), shouldEscapePath c = false) ∧
    (SlashesKept r.url out.url (removedLength prefixes r.url.path) ↔
      (prefixes.find? fun pre => hasPrefix r.url.path pre) = none ∨
      ¬ ((∃ t ∈ ((escapedOctets r.url).drop (removedLength prefixes r.url.path)).head?,
          EscapedSlash t) ∧
        ∃ t ∈ ((escapedOctets r.url).drop (removedLength prefixes r.url.path)).tail,
          EscapedSlash t)) :=
  ⟨stripKeepsEscaping_iff hu hpre, slashesKept_iff hkind hr hout⟩

def stripApi : PathPolicy := ⟨.stripBytePrefixes [lit "/api"] false, false⟩

/-- A request without header fields. -/
def requestFor (path rawPath : Bytes) : Request :=
  ⟨{ path := path, rawPath := rawPath }, ⟨[], List.nodup_nil⟩⟩

instance : DecidablePred EscapedSlash := fun t =>
  inferInstanceAs (Decidable (t.isEscaped = true ∧ t.value = ch '/'))

theorem strip_escaping_inner :
    StripKeepsEscaping { path := lit "/api/a/b", rawPath := lit "/api%2Fa%2Fb" } (lit "/api") ∧
    requestPathHandler stripApi (requestFor (lit "/api/a/b") (lit "/api/a%2Fb")) =
      .next (requestFor (lit "/a/b") (lit "/a%2Fb")) ∧
    SlashesKept { path := lit "/api/a/b", rawPath := lit "/api/a%2Fb" }
      { path := lit "/a/b", rawPath := lit "/a%2Fb" } 4 := by
  have hnext : requestPathHandler stripApi (requestFor (lit "/api/a/b") (lit "/api/a%2Fb")) =
      .next (requestFor (lit "/a/b") (lit "/a%2Fb")) := by decide +kernel
  obtain ⟨hstrip, hslashes⟩ := strip_escaping
    { path := lit "/api/a/b", rawPath := lit "/api%2Fa%2Fb" } (lit "/api") (Or.inr (by decide +kernel))
    (by decide +kernel) stripApi [lit "/api"] false rfl _ _ (Or.inr (by decide +kernel)) hnext
  exact ⟨hstrip.mpr (Or.inr (Or.inl (by decide +kernel))), hnext,
    hslashes.mpr (Or.inr (by decide +kernel))⟩

/-- `/api/a!b` is stripped to `/a%21b`, and `/api%2Fx%2Fy` is forwarded as `/x/y`. -/
theorem strip_reescapes :
    Parsed { path := lit "/api/a!b", rawPath := lit "/api/a!b" } ∧
    (stripPathPrefix { path := lit "/api/a!b", rawPath := lit "/api/a!b" } (lit "/api")).escapedPath =
      lit "/a%21b" ∧
    ¬ StripKeepsEscaping { path := lit "/api/a!b", rawPath := lit "/api/a!b" } (lit "/api") ∧
    Parsed { path := lit "/api/x/y", rawPath := lit "/api%2Fx%2Fy" } ∧
    requestPathHandler stripApi (requestFor (lit "/api/x/y") (lit "/api%2Fx%2Fy")) =
      .next (requestFor (lit "/x/y") []) ∧
    ¬ SlashesKept { path := lit "/api/x/y", rawPath := lit "/api%2Fx%2Fy" } { path := lit "/x/y" } 4 := by
  refine ⟨Or.inr (by decide +kernel), by decide +kernel, ?_, Or.inr (by decide +kernel),
    by decide +kernel, ?_⟩
  · show ¬ (_ = _)
    decide +kernel
  · intro hkept
    exact hkept 1 (.escaped (ch '2') (ch 'F')) (by decide +kernel) (by decide +kernel)
      (by decide +kernel)

end Statute.Rewrite
