import Statute.Rewrite.PathOps

/-!
# The two forms of a path agree

Every rewrite updates `Path` and `RawPath` by a rule of its own.  Through the octets of `RawPath` each
rule is a fact about lists: cutting a prefix of decoded bytes drops as many octets, adding one puts
its escaped octets in front.  `StripBytePrefixes` roots the two forms separately and can make them
disagree, but what it hands on was cleaned by `JoinPath`, which sets both forms from one text.

* `Coherent`: `RawPath` is empty or decodes to `Path`;
* `rewrites_coherent`: every rewrite, hoisted or at its position, keeps it.
-/

namespace Statute.Rewrite

open Statute.Base

/-- `RawPath` is empty or decodes to `Path`. -/
def Coherent (u : Url) : Prop := u.rawPath = [] ∨ unescape u.rawPath = some u.path

/-- The path starts with a slash. -/
def Rooted (p : Bytes) : Prop := ∃ s, p = ch '/' :: s

/-! ### Escaped paths -/

variable {p : Bytes}

theorem rooted_of_hasPrefix (h : hasPrefix p (lit "/") = true) : Rooted p := by
  rw [hasPrefix_iff] at h
  obtain ⟨s, hs⟩ := h
  exact ⟨s, hs.symm⟩

theorem unescape_escapedPath (path raw : Bytes) : unescape (Base.escapedPath path raw) = some path := by
  unfold Base.escapedPath
  split
  · rename_i h
    exact h.2.2
  · split
    · rename_i h
      rw [h]
      decide
    · exact unescape_escapePath path

/-- Walking along the octets of a text. -/
theorem rawTail_octetText {ts : List Octet} (h : ∀ t ∈ ts, t.WellFormed) {n : ℕ} (hn : n ≤ ts.length) :
    rawTailFromDecodedOffset (octetText ts) n = some (octetText (ts.drop n)) := by
  induction n generalizing ts with
  | zero => rw [rawTailFromDecodedOffset, List.drop_zero]
  | succ n ih =>
    cases ts with
    | nil => exact absurd hn (Nat.not_succ_le_zero n)
    | cons t ts =>
      have hrest := ih (fun u hu => h u (List.mem_cons_of_mem t hu)) (Nat.le_of_succ_le_succ hn)
      have ht := h t List.mem_cons_self
      rw [List.drop_succ_cons, ← hrest, octetText_cons]
      cases t with
      | plain c =>
        rw [Octet.bytes, List.singleton_append, rawTailFromDecodedOffset.eq_def]
        simp only [if_neg (show ¬ c = ch '%' from ht)]
      | escaped a b =>
        rw [Octet.bytes, rawTailFromDecodedOffset.eq_def]
        simp only [List.cons_append, List.nil_append, if_true, isHexDigit, ht.1, ht.2, Bool.and_self]

/-- An escaped slash is written in one of two ways. -/
theorem isEncodedSlash_escaped {a b : UInt8} (hwf : (Octet.escaped a b).WellFormed)
    (hvalue : (Octet.escaped a b).value = ch '/') (rest : Bytes) :
    isEncodedSlash (ch '%' :: a :: b :: rest) = true := by
  obtain ⟨x, hx⟩ := Option.isSome_iff_exists.mp hwf.1
  obtain ⟨y, hy⟩ := Option.isSome_iff_exists.mp hwf.2
  have hxlt := hexDigit_lt hx
  have hylt := hexDigit_lt hy
  simp only [Octet.value, hx, hy, Option.getD_some] at hvalue
  have hnat := congrArg UInt8.toNat hvalue
  have h47 : (ch '/').toNat = 47 := rfl
  rw [UInt8.toNat_ofNat', Nat.mod_eq_of_lt (by omega), h47] at hnat
  have hxx : x = 2 := by omega
  have hyy : y = 15 := by omega
  have ha : a = ch '2' := by
    have hupper : upperByte a = 50 := by rw [upperByte_of_hexDigit hx, hxx]; decide
    unfold upperByte at hupper
    grind [ch]
  have hb : (b == ch 'F' || b == ch 'f') = true := by
    have hupper : upperByte b = 70 := by rw [upperByte_of_hexDigit hy, hyy]; decide
    unfold upperByte at hupper
    grind [ch]
  rw [isEncodedSlash, ha, hb]
  rfl

/-- What follows a prefix of a text at a slash, with that slash written plainly. -/
theorem strippedRawRemainder_octetText {ts us : List Octet} {t : Octet} {n : ℕ}
    (h : ∀ t ∈ ts, t.WellFormed) (hdrop : ts.drop n = t :: us) (ht : t.value = ch '/') :
    strippedRawRemainder (octetText ts) n = octetText (.plain (ch '/') :: us) := by
  have hn : n ≤ ts.length := by
    by_contra hlt
    rw [List.drop_eq_nil_of_le (by omega)] at hdrop
    cases hdrop
  have hwf : t.WellFormed := h t (List.mem_of_mem_drop (hdrop ▸ List.mem_cons_self))
  rw [strippedRawRemainder, rawTail_octetText h hn, hdrop]
  simp only [octetText_cons]
  cases t with
  | plain c =>
    rw [show c = ch '/' from ht]
    rfl
  | escaped a b =>
    have hslash := isEncodedSlash_escaped hwf ht (octetText us)
    rw [if_neg, if_pos]
    · rfl
    · exact hslash
    · simp [Octet.bytes, hasPrefix, lit, ch]

/-! ### The hoisted rewrites -/

variable {u : Url}

/-- The octets of a path that is written as `RawPath` says. -/
theorem Coherent.octets (h : Coherent u) (hraw : u.rawPath ≠ []) :
    ∃ ts, u.rawPath = octetText ts ∧ (∀ t ∈ ts, t.WellFormed) ∧ octetValues ts = u.path :=
  exists_octets (h.resolve_left hraw)

/-- Where the decoded path goes on with a slash, so do its octets. -/
theorem drop_octets {ts : List Octet} {n : ℕ} {s : Bytes}
    (hvalues : (octetValues ts).drop n = ch '/' :: s) :
    ∃ t us, ts.drop n = t :: us ∧ t.value = ch '/' ∧ octetValues us = s := by
  rw [octetValues, ← List.map_drop] at hvalues
  obtain ⟨t, us, hdrop, ht, hus⟩ := List.map_eq_cons_iff.mp hvalues
  exact ⟨t, us, hdrop, ht, hus⟩

theorem hasPrefix_slash {pre : Bytes} (h : hasPrefix p (pre ++ lit "/") = true) :
    ∃ s, p = pre ++ ch '/' :: s := by
  rw [hasPrefix_iff] at h
  obtain ⟨s, hs⟩ := h
  refine ⟨s, ?_⟩
  rw [← hs, List.append_assoc]
  rfl

theorem octetText_slash_decodes {us : List Octet} (h : ∀ t ∈ us, t.WellFormed) :
    unescape (octetText (.plain (ch '/') :: us)) = some (ch '/' :: octetValues us) := by
  refine unescape_octetText fun t ht => ?_
  rcases List.mem_cons.mp ht with rfl | ht
  · show ch '/' ≠ ch '%'
    decide
  · exact h t ht

theorem stripPathPrefix_coherent (h : Coherent u) (pre : Bytes) :
    Coherent (stripPathPrefix u pre) := by
  unfold stripPathPrefix
  split
  · exact Or.inl rfl
  split
  · rename_i hpre
    obtain ⟨s, hs⟩ := hasPrefix_slash hpre
    have hdropped : u.path.drop pre.length = ch '/' :: s := by rw [hs, List.drop_left]
    simp only [hdropped]
    split
    · rename_i hraw
      obtain ⟨ts, htext, hwf, hvalues⟩ := h.octets hraw
      rw [← hvalues] at hdropped
      obtain ⟨t, us, hdrop, ht, hus⟩ := drop_octets hdropped
      have hrest := strippedRawRemainder_octetText hwf hdrop ht
      have huwf : ∀ t ∈ us, t.WellFormed := fun t ht =>
        hwf t (List.mem_of_mem_drop (hdrop ▸ List.mem_cons_of_mem _ ht))
      have hdecodes := octetText_slash_decodes huwf
      rw [hus] at hdecodes
      rw [htext, hrest]
      unfold Coherent
      simp only
      split
      · exact Or.inl rfl
      · exact Or.inr hdecodes
    · rename_i hraw
      exact Or.inl (not_not.mp hraw)
  · exact h

theorem addPathPrefix_coherent (h : Coherent u) (pre : Bytes) : Coherent (addPathPrefix u pre) := by
  unfold addPathPrefix Coherent
  simp only
  split
  · rename_i hraw
    exact Or.inr (unescape_append (unescape_escapedPath pre []) (h.resolve_left hraw))
  · rename_i hraw
    exact Or.inl (not_not.mp hraw)

theorem replaceURLPath_coherent (h : Coherent u) (replacement query : Bytes) (querySet : Bool) :
    Coherent (replaceURLPath u replacement query querySet) := by
  unfold replaceURLPath
  cases hdecoded : unescape replacement with
  | none => exact h
  | some decoded =>
    have hboth : (if replacement ≠ decoded then replacement else []) = [] ∨
        unescape (if replacement ≠ decoded then replacement else []) = some decoded := by
      split
      · exact Or.inr hdecoded
      · exact Or.inl rfl
    simp only
    split <;> exact hboth

/-- A regular expression leaves the URL alone or sets a rooted path in place of both forms. -/
theorem rewriteURLPath_cases (u : Url) (re : Regexp) (replacement : Bytes) :
    (rewriteURLPath u re replacement = u ∧ Rooted u.path) ∨
      ∃ p, Rooted p ∧ rewriteURLPath u re replacement = { u with path := p, rawPath := [] } := by
  have hrooted : ∀ out : Bytes, Rooted (if !hasPrefix out (lit "/") then lit "/" ++ out else out) := by
    intro out
    split
    · exact ⟨out, rfl⟩
    · rename_i hprefix
      rw [Bool.not_eq_true, Bool.not_eq_false'] at hprefix
      exact rooted_of_hasPrefix hprefix
  show ((if _ = u.path then u else _) = u ∧ Rooted u.path) ∨ ∃ p, Rooted p ∧ (if _ = u.path then u else _) = _
  by_cases hsame : (let out := re.replaceAllString u.path replacement
      let out := if out = [] then lit "/" else out
      if !hasPrefix out (lit "/") then lit "/" ++ out else out) = u.path
  · exact Or.inl ⟨if_pos hsame, hsame ▸ hrooted _⟩
  · exact Or.inr ⟨_, hrooted _, if_neg hsame⟩

theorem rewriteURLPath_coherent (h : Coherent u) (re : Regexp) (replacement : Bytes) :
    Coherent (rewriteURLPath u re replacement) := by
  obtain ⟨hsame, -⟩ | ⟨p, -, hset⟩ := rewriteURLPath_cases u re replacement
  · rw [hsame]
    exact h
  · rw [hset]
    exact Or.inl rfl

theorem apply_coherent (h : Coherent u) (op : PathRewrite) : Coherent (op.apply u) := by
  cases op with
  | stripPrefix pre => exact stripPathPrefix_coherent h pre
  | addPrefix pre => exact addPathPrefix_coherent h pre
  | replacePath replacement query querySet => exact replaceURLPath_coherent h replacement query querySet
  | rewritePath re replacement => exact rewriteURLPath_coherent h re replacement

theorem foldl_apply_coherent (h : Coherent u) (ops : List PathRewrite) :
    Coherent (ops.foldl (fun u op => op.apply u) u) := by
  induction ops generalizing u with
  | nil => exact h
  | cons op ops ih => exact ih (apply_coherent h op)

theorem withPathRewrite_coherent (h : Coherent u) (ops : List PathRewrite) :
    Coherent (withPathRewrite ops u) := by
  unfold withPathRewrite
  split
  · exact h
  simp only
  split
  · exact Or.inl rfl
  · exact foldl_apply_coherent h ops

/-! ### Rooted paths -/

theorem Rooted.append (h : Rooted p) (s : Bytes) : Rooted (p ++ s) := by
  obtain ⟨t, rfl⟩ := h
  exact ⟨t ++ s, rfl⟩

theorem normalizePathPrefix_rooted {written pre : Bytes} (h : normalizePathPrefix written = some pre) :
    Rooted pre := by
  unfold normalizePathPrefix at h
  split at h
  · cases h
  simp only at h
  split at h
  · rename_i a b rest hp
    split at h
    · cases h
    rename_i ha
    split at h
    · cases h
    rw [hp, Option.some.injEq] at h
    rw [not_not] at ha
    exact ⟨b :: rest, by rw [← h, ha]⟩
  · cases h

theorem splitReplacePath_rooted {target path query : Bytes} {querySet : Bool}
    (h : splitReplacePath target = some (path, query, querySet)) :
    Rooted path ∧ ∃ decoded, unescape path = some decoded := by
  unfold splitReplacePath at h
  split at h
  · cases h
  simp only at h
  split at h
  · cases h
  rename_i hprefix
  split at h
  · cases h
  split at h
  · cases h
  rename_i hdecodes
  split at h
  · cases h
  rw [Option.some.injEq, Prod.mk.injEq] at h
  rw [Bool.not_eq_true, Bool.not_eq_false'] at hprefix
  rw [h.1] at hprefix hdecodes
  exact ⟨rooted_of_hasPrefix hprefix, Option.ne_none_iff_exists'.mp hdecodes⟩

def PathRewrite.isStripPrefix : PathRewrite → Bool
  | .stripPrefix _ => true
  | .addPrefix _ | .replacePath _ _ _ | .rewritePath _ _ => false

/-- A resolved rewrite other than `StripPrefix` roots every path. -/
theorem apply_rooted {op : PathRewrite} (hop : op.Resolved) (hstrip : op.isStripPrefix = false) :
    Rooted (op.apply u).path := by
  cases op with
  | stripPrefix pre => cases hstrip
  | addPrefix pre =>
    obtain ⟨written, hwritten⟩ := hop
    exact (normalizePathPrefix_rooted hwritten).append u.path
  | replacePath replacement query querySet =>
    obtain ⟨target, htarget⟩ := hop
    obtain ⟨⟨s, rfl⟩, decoded, hdecoded⟩ := splitReplacePath_rooted htarget
    have hslash : ch '/' ≠ ch '%' := by decide
    have hrooted : Rooted decoded := by
      rw [unescape_plain hslash, Option.map_eq_some_iff] at hdecoded
      obtain ⟨t, -, rfl⟩ := hdecoded
      exact ⟨t, rfl⟩
    show Rooted (replaceURLPath u (ch '/' :: s) query querySet).path
    unfold replaceURLPath
    rw [hdecoded]
    simp only
    split <;> exact hrooted
  | rewritePath re replacement =>
    show Rooted (rewriteURLPath u re replacement).path
    obtain ⟨hsame, hu⟩ | ⟨p, hp, hset⟩ := rewriteURLPath_cases u re replacement
    · rw [hsame]
      exact hu
    · rw [hset]
      exact hp

/-- Whether a path is empty or rooted behind a rewrite. -/
theorem apply_rooted_iff {op : PathRewrite} (hop : op.Resolved) (u : Url) :
    ((op.apply u).path = [] ∨ Rooted (op.apply u).path) ↔
      (u.path = [] ∨ Rooted u.path) ∨ op.isStripPrefix = false := by
  cases hstrip : op.isStripPrefix with
  | false => exact iff_of_true (Or.inr (apply_rooted hop hstrip)) (Or.inr rfl)
  | true =>
    rw [or_iff_left (by simp : ¬ (true = false))]
    cases op with
    | addPrefix pre => cases hstrip
    | replacePath replacement query querySet => cases hstrip
    | rewritePath re replacement => cases hstrip
    | stripPrefix pre =>
      obtain ⟨written, hwritten⟩ := hop
      have hpre := normalizePathPrefix_rooted hwritten
      show ((stripPathPrefix u pre).path = [] ∨ Rooted (stripPathPrefix u pre).path) ↔ _
      unfold stripPathPrefix
      split
      · rename_i hwhole
        exact iff_of_true (Or.inr ⟨[], rfl⟩) (Or.inr (hwhole ▸ hpre))
      split
      · rename_i hbelow
        obtain ⟨s, hs⟩ := hasPrefix_slash hbelow
        have hdropped : u.path.drop pre.length = ch '/' :: s := by rw [hs, List.drop_left]
        refine iff_of_true (Or.inr ⟨s, ?_⟩) (Or.inr (hs ▸ hpre.append _))
        simp only
        split <;> exact hdropped
      · exact Iff.rfl

/-- **The hoisted rewrites** leave a path rooted if it was empty or rooted, or if one of them is no
`StripPrefix`, and in no other case. -/
theorem withPathRewrite_rooted_iff {ops : List PathRewrite} (hops : ∀ op ∈ ops, op.Resolved) (hne : ops ≠ []) :
    Rooted (withPathRewrite ops u).path ↔
      (u.path = [] ∨ Rooted u.path) ∨ ∃ op ∈ ops, op.isStripPrefix = false := by
  have hfold : ∀ (ops : List PathRewrite), (∀ op ∈ ops, op.Resolved) → ∀ u : Url,
      ((ops.foldl (fun u op => op.apply u) u).path = [] ∨ Rooted (ops.foldl (fun u op => op.apply u) u).path) ↔
        (u.path = [] ∨ Rooted u.path) ∨ ∃ op ∈ ops, op.isStripPrefix = false := by
    intro ops
    induction ops with
    | nil => simp
    | cons op ops ih =>
      intro hops u
      rw [List.foldl_cons, ih (fun o ho => hops o (List.mem_cons_of_mem op ho)),
        apply_rooted_iff (hops op List.mem_cons_self), or_assoc, List.exists_mem_cons_iff]
  rw [← hfold ops hops u]
  unfold withPathRewrite
  rw [if_neg hne]
  simp only
  split
  · rename_i hempty
    exact iff_of_true ⟨[], rfl⟩ (Or.inl hempty)
  · rename_i hnonempty
    exact (or_iff_right hnonempty).symm

/-! ### Rooting a path -/

theorem rootRequestPath_of_rooted (h : Rooted p) (force : Bool) : rootRequestPath p force = p := by
  obtain ⟨s, rfl⟩ := h
  cases force with
  | true => simp [rootRequestPath, cutPrefix, hasPrefix, lit, ch]
  | false => simp [rootRequestPath]

theorem rootRequestPath_of_not_rooted {force : Bool} (h : ¬ Rooted p)
    (hne : p ≠ [] ∨ force = true) : rootRequestPath p force = ch '/' :: p := by
  have hprefix : hasPrefix p (lit "/") = false := by
    rw [← Bool.not_eq_true]
    exact fun hp => h (rooted_of_hasPrefix hp)
  cases force with
  | true =>
    simp only [rootRequestPath, cutPrefix, hprefix, if_true, Bool.false_eq_true, if_false]
    rfl
  | false =>
    cases p with
    | nil => exact absurd rfl (hne.resolve_right (by simp))
    | cons c rest =>
      have hc : c ≠ ch '/' := fun hc => h ⟨rest, by rw [hc]⟩
      simp only [rootRequestPath, Bool.false_eq_true, if_false, if_pos hc]
      rfl

/-- A path that was rooted is empty or starts with a slash. -/
theorem rootRequestPath_rooted (p : Bytes) (force : Bool) :
    rootRequestPath p force = [] ∨ Rooted (rootRequestPath p force) := by
  by_cases h : Rooted p
  · rw [rootRequestPath_of_rooted h]
    exact Or.inr h
  by_cases hne : p ≠ [] ∨ force = true
  · rw [rootRequestPath_of_not_rooted h hne]
    exact Or.inr ⟨p, rfl⟩
  · rw [not_or, not_not, Bool.not_eq_true] at hne
    rw [hne.1, hne.2]
    exact Or.inl rfl

theorem rootRequestPath_eq_nil {force : Bool} (h : rootRequestPath p force = []) :
    p = [] ∧ force = false := by
  by_cases hr : Rooted p
  · rw [rootRequestPath_of_rooted hr] at h
    obtain ⟨s, hs⟩ := hr
    rw [h] at hs
    cases hs
  · by_contra hne
    rw [not_and_or, Bool.not_eq_false] at hne
    rw [rootRequestPath_of_not_rooted hr hne] at h
    cases h

theorem unescape_slash_cons {s : Bytes} (h : unescape s = some p) :
    unescape (ch '/' :: s) = some (ch '/' :: p) := by
  rw [unescape_plain (by decide), h]
  rfl

/-- What starts with a slash decodes to what does. -/
theorem Rooted.decodes {s : Bytes} (hs : Rooted s) (h : unescape s = some p) : Rooted p := by
  obtain ⟨t, rfl⟩ := hs
  rw [unescape_plain (by decide), Option.map_eq_some_iff] at h
  obtain ⟨q, -, rfl⟩ := h
  exact ⟨q, rfl⟩

/-- Rooting a path in both forms keeps them equal where they start with a slash together. -/
theorem rootRequestPath_decodes {raw path : Bytes} (h : unescape raw = some path)
    (hrooted : Rooted path → Rooted raw) (force : Bool) :
    unescape (rootRequestPath raw force) = some (rootRequestPath path force) := by
  by_cases hp : Rooted path
  · rw [rootRequestPath_of_rooted hp, rootRequestPath_of_rooted (hrooted hp), h]
  have hr : ¬ Rooted raw := fun hr => hp (hr.decodes h)
  have hempty : raw = [] ↔ path = [] := by
    obtain ⟨ts, rfl, -, rfl⟩ := exists_octets h
    cases ts with
    | nil => exact ⟨fun _ => rfl, fun _ => rfl⟩
    | cons t ts => exact ⟨fun he => absurd he (octetText_ne_nil (by simp)), fun he => absurd he (by simp [octetValues])⟩
  by_cases hne : path ≠ [] ∨ force = true
  · rw [rootRequestPath_of_not_rooted hp hne,
      rootRequestPath_of_not_rooted hr (hne.imp_left fun hn he => hn (hempty.mp he))]
    exact unescape_slash_cons h
  · rw [not_or, not_not, Bool.not_eq_true] at hne
    rw [hne.1, hne.2, hempty.mpr hne.1]
    rfl

/-! ### The rewrites at their position -/

theorem setPath_coherent {q : Bytes} (h : unescape p = some q) : Coherent (u.setPath p) := by
  unfold Url.setPath Coherent
  rw [h]
  simp only
  split
  · exact Or.inl rfl
  · exact Or.inr h

/-- Cleaning sets both forms from one text. -/
theorem joinPath_coherent (h : Coherent u ∨ Rooted u.path) : Coherent u.joinPath := by
  have hset : ∀ p, Coherent u → Coherent (u.setPath p) := by
    intro p hu
    cases hp : unescape p with
    | none =>
      unfold Url.setPath
      rw [hp]
      exact hu
    | some q => exact setPath_coherent hp
  by_cases hu : Coherent u
  · unfold Url.joinPath
    simp only
    split <;> exact hset _ hu
  -- the forms disagree, so the text is the escaped path, which starts with a slash
  obtain ⟨s, hs⟩ := h.resolve_left hu
  have helem : u.escapedPath = ch '/' :: escapePath s := by
    unfold Url.escapedPath Base.escapedPath
    rw [if_neg fun hraw => hu (Or.inr hraw.2.2), if_neg (by rw [hs]; simp [lit, ch]), hs, escapePath_eq,
      escapePath_eq, List.map_cons, octetText_cons]
    rfl
  have hdecodes := unescape_slash_cons (unescape_escapePath s)
  obtain ⟨q, hq, -⟩ := cleanSlash_spec hdecodes
  unfold Url.joinPath
  simp only [helem]
  rw [if_pos (by simp [hasPrefix, lit, ch])]
  exact setPath_coherent hq

/-- The escaped form of a text starts with a slash if the text does. -/
theorem escapedPath_rooted (h : Rooted p) : Rooted (Base.escapedPath p []) := by
  obtain ⟨s, rfl⟩ := h
  unfold Base.escapedPath
  rw [if_neg (by simp), if_neg (by simp [lit, ch]), escapePath_eq, List.map_cons, octetText_cons]
  exact ⟨_, rfl⟩

variable {m : PathPolicy} {r out : Request}

theorem prefixPath_coherent {pre current : Bytes} {check : Bool} (hpre : pre ≠ [])
    (h : Coherent r.url) (hkind : m.kind = .prefixPath pre)
    (hout : applyRequestPath m r current = some (check, out)) : Coherent out.url := by
  rw [applyRequestPath, hkind] at hout
  simp only [Option.some.injEq, Prod.mk.injEq] at hout
  obtain ⟨-, rfl⟩ := hout
  by_cases hraw : (addPathPrefix r.url pre).rawPath = []
  · exact Or.inl (by simp only [hraw, ne_eq, not_true, if_false])
  refine Or.inr ?_
  simp only [ne_eq, hraw, not_false_eq_true, if_true]
  refine rootRequestPath_decodes ((addPathPrefix_coherent h pre).resolve_left hraw) (fun hrooted => ?_) false
  have hr : r.url.rawPath ≠ [] := by
    intro hr
    exact hraw (by simp only [addPathPrefix, hr, ne_eq, not_true, if_false])
  have hp : Rooted pre := by
    obtain ⟨s, hs⟩ := hrooted
    cases pre with
    | nil => exact absurd rfl hpre
    | cons c cs => exact ⟨cs, by rw [(List.cons.inj hs).1]⟩
  simp only [addPathPrefix, ne_eq, hr, not_false_eq_true, if_true]
  exact (escapedPath_rooted hp).append _

/-- Stripping a prefix of bytes leaves the forms equal, or a rooted path to clean. -/
theorem stripRequestPrefixes_coherent {prefixes : List Bytes} {force : Bool} {check : Bool}
    (h : Coherent r.url) (hout : stripRequestPrefixes m prefixes force r = some (check, out)) :
    Coherent out.url ∨ check = true ∧ Rooted out.url.path := by
  unfold stripRequestPrefixes at hout
  split at hout
  · rw [Option.some.injEq, Prod.mk.injEq] at hout
    obtain ⟨-, rfl⟩ := hout
    exact Or.inl h
  rename_i pre hfind
  have hprefix : hasPrefix r.url.path pre = true := List.find?_some hfind
  simp only at hout
  by_cases hraw : r.url.rawPath = []
  · rw [if_neg (not_not.mpr hraw), Option.some.injEq, Prod.mk.injEq] at hout
    obtain ⟨-, rfl⟩ := hout
    exact Or.inl (Or.inl hraw)
  rw [if_pos hraw] at hout
  obtain ⟨ts, htext, hwf, hvalues⟩ := h.octets hraw
  have hlen : pre.length ≤ ts.length := by
    rw [hasPrefix_iff] at hprefix
    have hle := hprefix.length_le
    rw [← hvalues, octetValues, List.length_map] at hle
    exact hle
  rw [htext, rawTail_octetText hwf hlen, Option.some.injEq, Prod.mk.injEq] at hout
  obtain ⟨rfl, rfl⟩ := hout
  rcases rootRequestPath_rooted (r.url.path.drop pre.length) force with hnil | hrooted
  · refine Or.inl (Or.inl ?_)
    have hdrop := rootRequestPath_eq_nil hnil
    rw [← hvalues, octetValues, ← List.map_drop, List.map_eq_nil_iff] at hdrop
    simp only
    rw [hdrop.1, hdrop.2]
    rfl
  · exact Or.inr ⟨rfl, hrooted⟩

/-- Before the check the forms agree, or the path is rooted and will be cleaned. -/
theorem applyRequestPath_coherent (hm : m.Resolved) {current : Bytes} {check : Bool}
    (h : Coherent r.url) (hout : applyRequestPath m r current = some (check, out)) :
    Coherent out.url ∨ check = true ∧ Rooted out.url.path := by
  cases hkind : m.kind with
  | replaceEscapedPath | rewriteEscapedPath =>
    rw [applyRequestPath, hkind] at hout
    obtain ⟨path, hpath, hresult⟩ := Option.map_eq_some_iff.mp hout
    cases hresult
    exact Or.inl (Or.inr hpath)
  | prefixPath pre =>
    rw [PathPolicy.Resolved, hkind] at hm
    exact Or.inl (prefixPath_coherent hm.2 h hkind hout)
  | stripBytePrefixes prefixes force =>
    rw [applyRequestPath, hkind] at hout
    exact stripRequestPrefixes_coherent h hout

/-- **A rewrite at its position** hands on a URL whose forms agree. -/
theorem requestPathHandler_coherent (hm : m.Resolved) (h : Coherent r.url)
    (hout : requestPathHandler m r = .next out) : Coherent out.url := by
  unfold requestPathHandler at hout
  simp only at hout
  generalize hcurrent : (if r.url.rawPath = [] then r.url.escapedPath else r.url.rawPath) = current
    at hout
  split at hout
  · cases hout
    exact h
  cases happly : applyRequestPath m r current with
  | none =>
    rw [happly] at hout
    cases hout
  | some result =>
    obtain ⟨check, changed⟩ := result
    have hchanged := applyRequestPath_coherent hm h happly
    rw [happly] at hout
    simp only at hout
    split at hout
    · unfold requestPathNormalized at hout
      by_cases hempty : changed.url.path = []
      · rw [if_pos hempty] at hout
        cases hout
        refine hchanged.resolve_right fun hrooted => ?_
        obtain ⟨s, hs⟩ := hrooted.2
        rw [hempty] at hs
        cases hs
      · rw [if_neg hempty] at hout
        have hjoin := joinPath_coherent (hchanged.imp_right And.right)
        split at hout
        · rename_i url heq
          cases hout
          rw [Prod.mk.injEq] at heq
          rw [← heq.2]
          exact hjoin
        · cases hout
    · rename_i hcheck
      cases hout
      exact hchanged.resolve_right fun hrooted => hcheck hrooted.1

/-! ### Sequences of rewrites -/

/-- The rewrites of one group's edge, or one rewrite at its own position. -/
inductive PathStage where
  | hoisted (ops : List PathRewrite)
  | policy (m : PathPolicy)

/-- Every rewrite of the stage was accepted. -/
def PathStage.Resolved : PathStage → Prop
  | .hoisted ops => ∀ op ∈ ops, op.Resolved
  | .policy m => m.Resolved

def PathStage.serve : PathStage → Request → Outcome
  | .hoisted ops, r => .next { r with url := withPathRewrite ops r.url }
  | .policy m, r => requestPathHandler m r

/-- The requests the stages hand on, each to its next handler. -/
def handed : List PathStage → Request → List Request
  | [], _ => []
  | stage :: stages, r =>
    match stage.serve r with
    | .status _ => []
    | .next out => out :: handed stages out

theorem serve_coherent {stage : PathStage} (hstage : stage.Resolved) (h : Coherent r.url)
    (hout : stage.serve r = .next out) : Coherent out.url := by
  cases stage with
  | hoisted ops =>
    cases hout
    exact withPathRewrite_coherent h ops
  | policy m => exact requestPathHandler_coherent hstage h hout

theorem handed_coherent {stages : List PathStage} (hstages : ∀ stage ∈ stages, stage.Resolved)
    (h : Coherent r.url) : ∀ out ∈ handed stages r, Coherent out.url := by
  induction stages generalizing r with
  | nil => exact fun out hout => absurd hout List.not_mem_nil
  | cons stage stages ih =>
    intro out hout
    rw [handed] at hout
    cases hserve : stage.serve r with
    | status code =>
      rw [hserve] at hout
      exact absurd hout List.not_mem_nil
    | next next =>
      have hnext := serve_coherent (hstages stage List.mem_cons_self) h hserve
      rw [hserve] at hout
      rcases List.mem_cons.mp hout with rfl | hlater
      · exact hnext
      · exact ih (fun s hs => hstages s (List.mem_cons_of_mem stage hs)) hnext out hlater

/-- **The two forms agree.**  Through any sequence of accepted rewrites, every URL handed to a next
handler has a `RawPath` that is empty or decodes to `Path`; and the rewrites of a group's edge leave a
path rooted exactly if it was empty or rooted, or one of them is no `StripPrefix`. -/
theorem rewrites_coherent (stages : List PathStage) (hstages : ∀ stage ∈ stages, stage.Resolved)
    (r : Request) (h : Coherent r.url) :
    (∀ out ∈ handed stages r, Coherent out.url) ∧
    ∀ ops : List PathRewrite, (∀ op ∈ ops, op.Resolved) → ops ≠ [] → ∀ u : Url,
      (Rooted (withPathRewrite ops u).path ↔
        (u.path = [] ∨ Rooted u.path) ∨ ∃ op ∈ ops, op.isStripPrefix = false) :=
  ⟨handed_coherent hstages h, fun _ hops hne _ => withPathRewrite_rooted_iff hops hne⟩

/-- Strip `/api` at the edge, then the bytes `/v1` at its position. -/
def versionStages : List PathStage :=
  [.hoisted [.stripPrefix (lit "/api")], .policy ⟨.stripBytePrefixes [lit "/v1"] false, true⟩]

/-- A request below `/api/v1` whose next element is set off by an escaped slash. -/
def versionRequest : Request where
  url := { path := lit "/api/v1/x/y", rawPath := lit "/api/v1%2Fx/y" }
  header := ⟨[], List.nodup_nil⟩

theorem rewrites_coherent_version :
    (∀ stage ∈ versionStages, stage.Resolved) ∧ Coherent versionRequest.url ∧
    (handed versionStages versionRequest).map (fun r => (r.url.path, r.url.rawPath)) =
      [(lit "/v1/x/y", lit "/v1%2Fx/y"), (lit "/x/y", [])] ∧
    (∀ out ∈ handed versionStages versionRequest, Coherent out.url) ∧
    Rooted (withPathRewrite [.stripPrefix (lit "/api")] versionRequest.url).path := by
  have hop : PathRewrite.Resolved (.stripPrefix (lit "/api")) := ⟨lit "/api/", by decide⟩
  have hops : ∀ op ∈ [PathRewrite.stripPrefix (lit "/api")], op.Resolved := by
    intro op hmem
    rw [List.mem_singleton.mp hmem]
    exact hop
  have hstages : ∀ stage ∈ versionStages, stage.Resolved := by
    intro stage hmem
    rcases List.mem_cons.mp hmem with rfl | hmem
    · exact hops
    · rw [List.mem_singleton.mp hmem]
      show ∀ p ∈ [lit "/v1"], plainText p = true
      decide
  have hcoherent : Coherent versionRequest.url := Or.inr (by decide +kernel)
  obtain ⟨hall, hrooted⟩ := rewrites_coherent versionStages hstages versionRequest hcoherent
  exact ⟨hstages, hcoherent, by decide +kernel, hall,
    (hrooted _ hops (by simp) versionRequest.url).2 (Or.inl (Or.inr ⟨_, rfl⟩))⟩

/-- The path `*` of a request that addresses the server passes an edge that strips a prefix. -/
theorem stripPrefix_keeps_asterisk :
    PathRewrite.Resolved (.stripPrefix (lit "/api")) ∧ Coherent { path := lit "*" } ∧
    (withPathRewrite [.stripPrefix (lit "/api")] { path := lit "*" }).path = lit "*" ∧
    ¬ Rooted (lit "*") := by
  refine ⟨⟨lit "/api", by decide⟩, Or.inl rfl, by decide, ?_⟩
  intro hrooted
  obtain ⟨s, hs⟩ := hrooted
  exact absurd (List.cons.inj hs).1 (by decide)

end Statute.Rewrite
