import Mathlib.Data.List.TakeWhile
import Statute.Redirect.Location

/-!
# Relative redirects and the request's origin

A browser removes tab, CR and LF bytes from a `Location` and reads `\` as `/`; a location that then
starts with a scheme or with `//` leaves the origin.

`redirectRouteHandler` collapses leading slashes and escapes backslashes, and `http.Redirect` cleans what
parses, below the directory of the escaped request path.  A tab of the template gets past both:
`/<tab>/x` does not parse, and a browser reads `//x`.

* `StaysOnOrigin` — the condition on the expanded template and the escaped path: the bytes behind the
  leading slashes if the reference does not parse, the elements of the cleaned path if it does;
* `relative_redirect_iff` — the redirect stays on the origin exactly then;
* `staysOnOrigin_of_noTab` — in particular for every expansion without a tab below a rooted path.
-/

namespace Statute.Redirect

open Statute.Base Statute.Provider

/-! ### What a browser reads -/

/-- The bytes a browser removes from a URL. -/
def isStripped (c : UInt8) : Bool := c == 9 || c == 10 || c == 13

/-- A URL as a browser reads it: tab, CR and LF removed, backslashes read as slashes. -/
def browserForm (s : Bytes) : Bytes :=
  (s.filter (fun c => !isStripped c)).map (fun c => if c = ch '\\' then ch '/' else c)

/-- The location stays on the request's origin: it has no scheme and no authority. -/
def SameOrigin (loc : Bytes) : Prop :=
  hasScheme (browserForm loc) = false ∧ ¬ lit "//" <+: browserForm loc

instance (loc : Bytes) : Decidable (SameOrigin loc) := inferInstanceAs (Decidable (_ ∧ _))

/-- Behind its leading slashes and backslashes, a rooted text goes on with tabs and a slash. -/
def TabbedSlash (e : Bytes) : Prop :=
  isRooted e = true ∧ ((e.dropWhile isSlash).dropWhile (· == 9)).head? = some (ch '/')

/-- Elements behind a slash that are read as another slash: of the first one nothing is left. -/
def Doubles (trailing : Bool) : List Bytes → Prop
  | [] => False
  | f :: more => browserForm f = [] ∧ (more ≠ [] ∨ trailing = true)

/-- The elements of an unrooted path spell a scheme, or are read as two slashes. -/
def Departs (trailing : Bool) : List Bytes → Prop
  | [] => False
  | f :: more => hasScheme (browserForm f) = true ∨ browserForm f = [] ∧ Doubles trailing more

/-- The part of an expansion before its query, with its backslashes escaped. -/
def pathPart (e : Bytes) : Bytes := escapeBackslashes (e.takeWhile beforeQuery)

/-- The path an expansion leads to: its own, or one below the directory of the request path. -/
def joinedPath (path e : Bytes) : Bytes :=
  if isRooted e then ch '/' :: pathPart (e.dropWhile isSlash) else requestDir path ++ (lit "./" ++ pathPart e)

/-- The elements of a path, cleaned, stay on the origin. -/
def CleanStays (q : Bytes) : Prop :=
  if isRooted q then ¬ Doubles (hasSuffix q (lit "/")) (cleanStack true q).reverse
  else ¬ Departs (hasSuffix q (lit "/")) (cleanStack false q).reverse

/-- An expanded template stays on the origin of a request with this escaped path. -/
def StaysOnOrigin (path e : Bytes) : Prop :=
  if urlParses (redirectLocation true e) then CleanStays (joinedPath path e) else ¬ TabbedSlash e

/-! ### Reading a location -/

variable (s : Bytes)

theorem browserForm_append (t : Bytes) : browserForm (s ++ t) = browserForm s ++ browserForm t := by
  simp [browserForm]

variable {c : UInt8}

theorem browserForm_cons (h : isStripped c = false) (s : Bytes) :
    browserForm (c :: s) = (if c = ch '\\' then ch '/' else c) :: browserForm s := by
  simp [browserForm, h]

/-- A first byte that is neither removed nor a slash, nor starts a scheme. -/
theorem sameOrigin_cons (hstrip : isStripped c = false) (hslash : isSlash c = false)
    (hletter : isLetter c = false) : SameOrigin (c :: s) := by
  simp only [isSlash, Bool.or_eq_false_iff, beq_eq_false_iff_ne] at hslash
  rw [SameOrigin, browserForm_cons hstrip, if_neg hslash.2, hasScheme_cons, hletter]
  refine ⟨rfl, ?_⟩
  intro h
  exact hslash.1 (List.cons_prefix_cons.1 h).1.symm

theorem sameOrigin_slash {s : Bytes} :
    SameOrigin (ch '/' :: s) ↔ (browserForm s).head? ≠ some (ch '/') := by
  have hform : browserForm (ch '/' :: s) = ch '/' :: browserForm s := browserForm_cons (by decide) s
  have hletter : isLetter (ch '/') = false := by decide
  rw [SameOrigin, hform, hasScheme_cons, hletter, Bool.false_and]
  cases hs : browserForm s with
  | nil => simp [lit]
  | cons c t =>
    have hlit : lit "//" = [ch '/', ch '/'] := rfl
    simp [hlit, List.cons_prefix_cons, eq_comm]

/-- A byte that no scheme holds ends the search for one. -/
theorem schemeTail_stop {d : UInt8} (hcolon : (d == ch ':') = false) (hbyte : schemeByte d = false)
    (q : Bytes) : (schemeTail (s ++ d :: q)).isSome = (schemeTail s).isSome := by
  induction s with
  | nil =>
    rw [List.nil_append, schemeTail_cons_isSome, hcolon, hbyte]
    rfl
  | cons c s ih => rw [List.cons_append, schemeTail_cons_isSome, schemeTail_cons_isSome, ih]

theorem hasScheme_stop {d : UInt8} (hcolon : (d == ch ':') = false) (hbyte : schemeByte d = false)
    (q : Bytes) : hasScheme (s ++ d :: q) = hasScheme s := by
  cases s with
  | nil =>
    have hletter : isLetter d = false := by
      unfold schemeByte at hbyte
      simp only [Bool.or_eq_false_iff] at hbyte
      exact hbyte.1.1
    rw [List.nil_append, hasScheme_cons, hletter]
    rfl
  | cons c s => rw [List.cons_append, hasScheme_cons, hasScheme_cons, schemeTail_stop s hcolon hbyte]

theorem slashes_query (q : Bytes) : lit "//" <+: s ++ ch '?' :: q ↔ lit "//" <+: s := by
  have hlit : lit "//" = [ch '/', ch '/'] := rfl
  have hne : ch '/' ≠ ch '?' := by decide
  rcases s with _ | ⟨a, _ | ⟨b, s⟩⟩ <;> simp [hlit, List.cons_prefix_cons, hne]

/-- A query does not change where a location leads. -/
theorem sameOrigin_query (q : Bytes) : SameOrigin (s ++ ch '?' :: q) ↔ SameOrigin s := by
  have hform : browserForm (s ++ ch '?' :: q) = browserForm s ++ ch '?' :: browserForm q := by
    rw [browserForm_append, browserForm_cons (by decide), if_neg (by decide)]
  rw [SameOrigin, SameOrigin, hform, slashes_query, hasScheme_stop _ (by decide) (by decide)]

/-! ### Escaping keeps the reading -/

theorem browserForm_hexEscape :
    browserForm (hexEscapeNonASCII s) = hexEscapeNonASCII (browserForm s) := by
  induction s with
  | nil => rfl
  | cons c s ih =>
    have hcons : ∀ t : Bytes, hexEscapeNonASCII (c :: t) =
        (if 128 ≤ c then percent false c else [c]) ++ hexEscapeNonASCII t := by
      intro t
      simp [hexEscapeNonASCII]
    have hbyte : browserForm (if 128 ≤ c then percent false c else [c]) =
        hexEscapeNonASCII (browserForm [c]) :=
      forall_byte (p := fun c => browserForm (if 128 ≤ c then percent false c else [c]) =
        hexEscapeNonASCII (browserForm [c])) (by decide +kernel) c
    have hform : browserForm (c :: s) = browserForm [c] ++ browserForm s :=
      browserForm_append [c] s
    rw [hcons, browserForm_append, ih, hbyte, hform]
    simp [hexEscapeNonASCII]

theorem hexEscape_cons_ascii (h : ¬ 128 ≤ c) (s : Bytes) :
    hexEscapeNonASCII (c :: s) = c :: hexEscapeNonASCII s := by
  simp [hexEscapeNonASCII, if_neg h]

theorem hexEscape_cons_high (h : 128 ≤ c) (s : Bytes) :
    ∃ a b, hexEscapeNonASCII (c :: s) = ch '%' :: a :: b :: hexEscapeNonASCII s := by
  refine ⟨hexChar false (c.toNat / 16), hexChar false (c.toNat % 16), ?_⟩
  simp [hexEscapeNonASCII, if_pos h, percent]

/-- A byte above ASCII is neither a colon nor a scheme byte nor a slash. -/
theorem high_byte (h : 128 ≤ c) :
    (c == ch ':') = false ∧ schemeByte c = false ∧ isLetter c = false ∧ c ≠ ch '/' := by
  have hmark : (lit "+.-").contains c = false := by
    rw [← Bool.not_eq_true, List.contains_iff_mem]
    intro hmem
    have hlow : c < 128 := forall_mem_of_all (p := fun c => c < 128) (by decide) c hmem
    grind
  unfold schemeByte isLetter
  grind [ch]

theorem schemeTail_hexEscape :
    (schemeTail (hexEscapeNonASCII s)).isSome = (schemeTail s).isSome := by
  induction s with
  | nil => rfl
  | cons c s ih =>
    by_cases h : 128 ≤ c
    · obtain ⟨a, b, hs⟩ := hexEscape_cons_high h s
      obtain ⟨hcolon, hbyte, _⟩ := high_byte h
      have hpercent : (ch '%' == ch ':') = false ∧ schemeByte (ch '%') = false := by decide
      rw [hs, schemeTail_cons_isSome, hpercent.1, hpercent.2, schemeTail_cons_isSome c, hcolon, hbyte]
      rfl
    · rw [hexEscape_cons_ascii h, schemeTail_cons_isSome, schemeTail_cons_isSome, ih]

theorem hasScheme_hexEscape : hasScheme (hexEscapeNonASCII s) = hasScheme s := by
  cases s with
  | nil => rfl
  | cons c s =>
    by_cases h : 128 ≤ c
    · obtain ⟨a, b, hs⟩ := hexEscape_cons_high h s
      have hpercent : isLetter (ch '%') = false := by decide
      rw [hs, hasScheme_cons, hasScheme_cons, (high_byte h).2.2.1, hpercent]
      rfl
    · rw [hexEscape_cons_ascii h, hasScheme_cons, hasScheme_cons, schemeTail_hexEscape]

theorem slashes_hexEscape : lit "//" <+: hexEscapeNonASCII s ↔ lit "//" <+: s := by
  have hlit : lit "//" = [ch '/', ch '/'] := rfl
  have hpercent : ch '/' ≠ ch '%' := by decide
  have hfirst : ∀ t : Bytes, [ch '/'] <+: hexEscapeNonASCII t ↔ [ch '/'] <+: t := by
    intro t
    cases t with
    | nil => rfl
    | cons c t =>
      by_cases h : 128 ≤ c
      · obtain ⟨a, b, hs⟩ := hexEscape_cons_high h t
        simp [hs, List.cons_prefix_cons, hpercent, Ne.symm (high_byte h).2.2.2]
      · simp [hexEscape_cons_ascii h, List.cons_prefix_cons]
  rw [hlit]
  cases s with
  | nil => rfl
  | cons c s =>
    by_cases h : 128 ≤ c
    · obtain ⟨a, b, hs⟩ := hexEscape_cons_high h s
      simp [hs, List.cons_prefix_cons, hpercent, Ne.symm (high_byte h).2.2.2]
    · rw [hexEscape_cons_ascii h, List.cons_prefix_cons, List.cons_prefix_cons, hfirst]

@[simp] theorem sameOrigin_hexEscape : SameOrigin (hexEscapeNonASCII s) ↔ SameOrigin s := by
  rw [SameOrigin, SameOrigin, browserForm_hexEscape, hasScheme_hexEscape, slashes_hexEscape]

/-! ### Cleaned paths -/

theorem mem_of_mem_split {s w : Bytes} (h : w ∈ split c s) : ∀ b ∈ w, b ∈ s := by
  induction s generalizing w with
  | nil =>
    rw [split, List.mem_singleton] at h
    simp [h]
  | cons x xs ih =>
    simp only [split] at h
    split at h
    · rcases List.mem_cons.1 h with rfl | h
      · simp
      · exact fun b hb => List.mem_cons_of_mem _ (ih h b hb)
    · cases hs : split c xs with
      | nil => exact absurd hs (split_ne_nil c xs)
      | cons v vs =>
        rw [hs] at h
        rcases List.mem_cons.1 h with rfl | h
        · intro b hb
          rcases List.mem_cons.1 hb with rfl | hb
          · exact List.mem_cons_self
          · exact List.mem_cons_of_mem _ (ih (hs ▸ List.mem_cons_self) b hb)
        · exact fun b hb => List.mem_cons_of_mem _ (ih (hs ▸ List.mem_cons_of_mem _ h) b hb)

/-- An element of a path that holds no backslash. -/
def IsElement (f : Bytes) : Prop := f ≠ [] ∧ ch '/' ∉ f ∧ ch '\\' ∉ f

/-- What is read of an element starts with no slash. -/
theorem IsElement.head {f : Bytes} (h : IsElement f) : (browserForm f).head? ≠ some (ch '/') := by
  intro hhead
  obtain ⟨c, hc, hslash⟩ := List.mem_map.1 (List.mem_of_head? hhead)
  have hmem := (List.mem_filter.1 hc).1
  split at hslash
  · rename_i hback
    exact h.2.2 (hback ▸ hmem)
  · exact h.2.1 (hslash ▸ hmem)

/-- The slash that cleaning keeps. -/
def keptSlash (trailing : Bool) : Bytes := if trailing then lit "/" else []

/-- What follows the first element of a path. -/
def afterFirst (trailing : Bool) (more : List Bytes) : Bytes :=
  if more = [] then keptSlash trailing else ch '/' :: (joinElems more ++ keptSlash trailing)

theorem joinElems_first (trailing : Bool) (f : Bytes) (more : List Bytes) :
    joinElems (f :: more) ++ keptSlash trailing = f ++ afterFirst trailing more := by
  rw [afterFirst]
  cases more with
  | nil => simp [joinElems]
  | cons g gs => rw [if_neg (List.cons_ne_nil _ _), joinElems_cons_cons, List.append_assoc, List.cons_append]

variable {elems : List Bytes} {trailing : Bool}

/-- Elements are read as starting with a slash exactly if the first one vanishes before another. -/
theorem head_elems (hne : elems ≠ []) (helems : ∀ f ∈ elems, IsElement f) :
    (browserForm (joinElems elems ++ keptSlash trailing)).head? = some (ch '/') ↔ Doubles trailing elems := by
  obtain ⟨f, more, rfl⟩ := List.exists_cons_of_ne_nil hne
  have hhead := (helems f List.mem_cons_self).head
  rw [joinElems_first, browserForm_append, Doubles]
  cases hform : browserForm f with
  | cons c t =>
    rw [hform] at hhead
    simpa using hhead
  | nil =>
    rw [List.nil_append, afterFirst]
    cases more with
    | nil =>
      cases trailing with
      | false => simp [keptSlash, browserForm]
      | true => exact iff_of_true (by decide) ⟨rfl, Or.inr rfl⟩
    | cons g gs => simp [browserForm_cons (show isStripped (ch '/') = false by decide)]

/-- The end of joined elements is no slash. -/
theorem joinElems_last (hne : elems ≠ []) (helems : ∀ f ∈ elems, IsElement f) :
    ∃ a c, joinElems elems = a ++ [c] ∧ c ≠ ch '/' := by
  induction elems with
  | nil => exact absurd rfl hne
  | cons f more ih =>
    obtain ⟨hf, hmore⟩ := List.forall_mem_cons.1 helems
    cases more with
    | nil =>
      obtain ⟨a, c, hac⟩ := (List.eq_nil_or_concat f).resolve_left hf.1
      refine ⟨a, c, by simp [joinElems, hac], fun hc => hf.2.1 ?_⟩
      rw [hac, hc, List.concat_eq_append]
      exact List.mem_append_right _ List.mem_cons_self
    | cons g gs =>
      obtain ⟨a, c, hac, hc⟩ := ih (List.cons_ne_nil _ _) hmore
      exact ⟨f ++ ch '/' :: a, c, by rw [joinElems_cons_cons, hac]; simp, hc⟩

variable {q : Bytes}

theorem cleanSlash_eq {root : Bytes} (hclean : pathClean q = root ++ joinElems elems) (hne : elems ≠ [])
    (helems : ∀ f ∈ elems, IsElement f) :
    cleanSlash q = root ++ (joinElems elems ++ keptSlash (hasSuffix q (lit "/"))) := by
  obtain ⟨a, c, hac, hc⟩ := joinElems_last hne helems
  have hlast : hasSuffix (root ++ joinElems elems) (lit "/") = false := by
    rw [Bool.eq_false_iff, ne_eq, hasSuffix_iff, hac, ← List.append_assoc]
    rintro ⟨t, ht⟩
    exact hc (List.append_inj_right' ht rfl |> List.cons.inj |>.1.symm)
  unfold cleanSlash keptSlash
  dsimp only
  rw [hclean, hlast]
  cases hasSuffix q (lit "/") <;> simp

/-- **Cleaned paths.**  A cleaned path stays on the origin exactly if its elements do. -/
theorem sameOrigin_cleanSlash (hback : ch '\\' ∉ q) : SameOrigin (cleanSlash q) ↔ CleanStays q := by
  have helems : ∀ rooted, ∀ f ∈ (cleanStack rooted q).reverse, IsElement f := by
    intro rooted f hf
    obtain ⟨hmem, hne⟩ := mem_cleanStack rooted (List.mem_reverse.1 hf)
    exact ⟨hne, not_mem_of_mem_split hmem, fun hb => hback (mem_of_mem_split hmem _ hb)⟩
  rw [CleanStays]
  cases hroot : isRooted q with
  | true =>
    have hclean : pathClean q = lit "/" ++ joinElems (cleanStack true q).reverse := by simp [pathClean, hroot, lit]
    rw [if_pos rfl]
    by_cases hnil : (cleanStack true q).reverse = []
    · have hslash : cleanSlash q = lit "/" := by
        rw [cleanSlash, hclean, hnil]
        cases hasSuffix q (lit "/") <;> rfl
      rw [hslash, hnil]
      exact iff_of_true (by decide) id
    · rw [cleanSlash_eq hclean hnil (helems true), ← head_elems hnil (helems true)]
      exact sameOrigin_slash
  | false =>
    rw [if_neg Bool.false_ne_true]
    cases hstack : (cleanStack false q).reverse with
    | nil =>
      have hdot : pathClean q = lit "." := by simp [pathClean, hroot, List.reverse_eq_nil_iff.1 hstack]
      have hkeep : cleanSlash q = lit "." ∨ cleanSlash q = lit "./" := by
        rw [cleanSlash, hdot]
        cases hasSuffix q (lit "/")
        · exact Or.inl rfl
        · exact Or.inr rfl
      refine iff_of_true ?_ id
      rcases hkeep with hkeep | hkeep
      · rw [hkeep]
        decide
      · rw [hkeep]
        decide
    | cons f more =>
      have hne : cleanStack false q ≠ [] := fun hnil => by simp [hnil] at hstack
      have hclean : pathClean q = [] ++ joinElems (f :: more) := by simp [pathClean, hroot, hne, hstack]
      have hparts : ∀ g ∈ f :: more, IsElement g := hstack ▸ helems false
      have hhead := (hparts f List.mem_cons_self).head
      rw [cleanSlash_eq hclean (List.cons_ne_nil _ _) hparts, List.nil_append, joinElems_first, Departs]
      generalize hasSuffix q (lit "/") = trailing
      cases hform : browserForm f with
      | nil =>
        -- the element vanishes, and what follows it is read alone
        have hempty : hasScheme [] = false := rfl
        have hread : SameOrigin (f ++ afterFirst trailing more) ↔ SameOrigin (afterFirst trailing more) := by
          rw [SameOrigin, SameOrigin, browserForm_append, hform, List.nil_append]
        rw [hread, hempty, afterFirst]
        by_cases hmore : more = []
        · rw [if_pos hmore, hmore]
          refine iff_of_true ?_ (by simp [Doubles])
          cases trailing <;> decide
        · rw [if_neg hmore, sameOrigin_slash, ne_eq,
            head_elems hmore fun g hg => hparts g (List.mem_cons_of_mem _ hg)]
          simp
      | cons c t =>
        rw [hform] at hhead
        have hc : c ≠ ch '/' := by simpa using hhead
        have hscheme : hasScheme (c :: t ++ browserForm (afterFirst trailing more)) = hasScheme (c :: t) := by
          have hstop : browserForm (afterFirst trailing more) = [] ∨
              ∃ u, browserForm (afterFirst trailing more) = ch '/' :: u := by
            rw [afterFirst]
            split
            · cases trailing
              · exact Or.inl rfl
              · exact Or.inr ⟨[], by decide⟩
            · exact Or.inr ⟨_, browserForm_cons (by decide) _⟩
          rcases hstop with hstop | ⟨u, hstop⟩
          · rw [hstop, List.append_nil]
          · rw [hstop, hasScheme_stop _ (by decide) (by decide)]
        rw [SameOrigin, browserForm_append, hform, hscheme]
        have hslashes : ¬ lit "//" <+: c :: t ++ browserForm (afterFirst trailing more) := by
          intro hprefix
          exact hc (List.cons_prefix_cons.1 hprefix).1.symm
        rw [and_iff_left hslashes]
        simp

/-! ### Rebasing -/

theorem dropWhile_beforeQuery :
    s.dropWhile beforeQuery = [] ∨ ∃ q, s.dropWhile beforeQuery = ch '?' :: q := by
  induction s with
  | nil => exact Or.inl rfl
  | cons c s ih =>
    by_cases hc : c = ch '?'
    · exact Or.inr ⟨s, by simp [beforeQuery, hc]⟩
    · have hbefore : beforeQuery c = true := by simp [beforeQuery, hc]
      rwa [List.dropWhile_cons, if_pos hbefore]

theorem sameOrigin_append_query (url : Bytes) :
    SameOrigin (s ++ url.dropWhile beforeQuery) ↔ SameOrigin s := by
  rcases dropWhile_beforeQuery url with h | ⟨q, h⟩
  · rw [h, List.append_nil]
  · rw [h, sameOrigin_query]

/-- The path part of a URL that starts with a directory. -/
theorem takeWhile_dir (dir s : Bytes) : (dir ++ s).takeWhile beforeQuery =
    if ch '?' ∈ dir then dir.takeWhile beforeQuery else dir ++ s.takeWhile beforeQuery := by
  induction dir with
  | nil => simp
  | cons c dir ih =>
    by_cases hc : c = ch '?'
    · simp [beforeQuery, hc]
    · have hmem : ch '?' ∈ c :: dir ↔ ch '?' ∈ dir := by simp [Ne.symm hc]
      have hbefore : beforeQuery c = true := by simp [beforeQuery, hc]
      rw [List.cons_append, List.takeWhile_cons, if_pos hbefore, ih, List.takeWhile_cons,
        if_pos hbefore]
      by_cases hq : ch '?' ∈ dir
      · rw [if_pos hq, if_pos (hmem.2 hq)]
      · rw [if_neg hq, if_neg (fun h => hq (hmem.1 h)), List.cons_append]

theorem escapePathPart_eq (e : Bytes) : escapePathPart e = pathPart e ++ e.dropWhile beforeQuery := by
  unfold escapePathPart cut pathPart
  cases hsplit : splitAtByte (ch '?') e with
  | none =>
    have hno : ∀ c ∈ e, beforeQuery c = true := by
      intro c hc
      rw [beforeQuery, bne_iff_ne]
      rintro rfl
      obtain ⟨a, b, rfl, hnot⟩ := List.eq_append_cons_of_mem hc
      simp [splitAtByte_append hnot] at hsplit
    rw [List.takeWhile_eq_self_iff.2 hno, List.dropWhile_eq_nil_iff.2 hno]
    simp
  | some r =>
    obtain ⟨before, after⟩ := r
    obtain ⟨rfl, hnot⟩ := splitAtByte_some hsplit
    have hbefore : ∀ c ∈ before, beforeQuery c = true := by
      intro c hc
      rw [beforeQuery, bne_iff_ne]
      rintro rfl
      exact hnot hc
    rw [List.takeWhile_append_of_pos hbefore, List.dropWhile_append_of_pos hbefore]
    simp [beforeQuery]

theorem percent5C_bytes : ∀ c ∈ lit "%5C", isCTL c = false ∧ c ≠ ch '\\' ∧ c ≠ ch '?' :=
  forall_mem_of_all (by decide)

theorem mem_escapeBackslashes {s : Bytes} (h : c ∈ escapeBackslashes s) :
    c ≠ ch '\\' ∧ (c ∈ s ∨ c ∈ lit "%5C") := by
  obtain ⟨b, hb, hc⟩ := List.mem_flatMap.1 h
  split at hc
  · exact ⟨(percent5C_bytes c hc).2.1, Or.inr hc⟩
  · rename_i hne
    rw [List.mem_singleton.1 hc]
    exact ⟨hne, Or.inl hb⟩

theorem pathPart_bytes {e : Bytes} (h : c ∈ pathPart e) : c ≠ ch '\\' ∧ c ≠ ch '?' := by
  obtain ⟨hback, hmem | hmem⟩ := mem_escapeBackslashes h
  · exact ⟨hback, by simpa [beforeQuery] using List.mem_takeWhile_imp hmem⟩
  · exact ⟨hback, (percent5C_bytes c hmem).2.2⟩

/-- A location is a text without query and a query. -/
theorem sameOrigin_rebased {a b : Bytes} (e : Bytes) (ha : ch '?' ∉ a)
    (hb : b = a ++ escapePathPart e) :
    SameOrigin (cleanSlash (b.takeWhile beforeQuery) ++ b.dropWhile beforeQuery) ↔
      SameOrigin (cleanSlash (a ++ pathPart e)) := by
  have hno : ch '?' ∉ a ++ pathPart e := by
    intro hmem
    rcases List.mem_append.1 hmem with hmem | hmem
    · exact ha hmem
    · exact (pathPart_bytes hmem).2 rfl
  have hend : (e.dropWhile beforeQuery).takeWhile beforeQuery = [] := by
    rcases dropWhile_beforeQuery e with h | ⟨q, h⟩
    · rw [h]
      rfl
    · rw [h]
      simp [beforeQuery]
  rw [sameOrigin_append_query, hb, escapePathPart_eq, ← List.append_assoc, takeWhile_dir, if_neg hno, hend,
    List.append_nil]

/-! ### Expanded templates -/

/-- No byte of the text is a control byte. -/
def NoCTL (s : Bytes) : Prop := ∀ c ∈ s, isCTL c = false

/-- No byte of the text is a control byte other than a tab. -/
def TabsOnly (s : Bytes) : Prop := ∀ c ∈ s, isCTL c = true → c = 9

theorem NoCTL.append {s t : Bytes} (hs : NoCTL s) (ht : NoCTL t) : NoCTL (s ++ t) := by
  intro c hc
  rcases List.mem_append.1 hc with h | h
  · exact hs c h
  · exact ht c h

/-- What an escaped path is made of. -/
def pathByte (c : UInt8) : Bool := !isCTL c && c != ch '\\' && c != ch '?'

theorem pathByte_iff : pathByte c = true ↔ (isCTL c = false ∧ c ≠ ch '\\') ∧ c ≠ ch '?' := by
  simp [pathByte]

theorem escapedPath_bytes (path rawPath : Bytes) : ∀ c ∈ escapedPath path rawPath, pathByte c = true := by
  have hplain : ∀ c, shouldEscapePath c = false → pathByte c = true :=
    forall_byte (p := fun c => shouldEscapePath c = false → pathByte c = true) (by decide +kernel)
  unfold escapedPath
  split
  · rename_i h
    intro c hc
    have hvalid := List.all_eq_true.1 h.2.1 c hc
    rw [Bool.or_eq_true, Bool.not_eq_true'] at hvalid
    rcases hvalid with hmark | hunescaped
    · have hmarks : ∀ b ∈ lit "!$&'()*+,;=:@[]%", pathByte b = true := forall_mem_of_all (by decide)
      exact hmarks c (List.contains_iff_mem.mp hmark)
    · exact hplain c hunescaped
  · split
    · exact forall_mem_of_all (by decide)
    · intro c hc
      obtain ⟨b, _, hb⟩ := List.mem_flatMap.1 hc
      split at hb
      · have hpercent : ∀ b, (percent true b).all pathByte = true :=
          forall_byte (p := fun b => (percent true b).all pathByte = true) (by decide +kernel)
        exact List.all_eq_true.1 (hpercent b) c hb
      · rename_i hescape
        rw [List.mem_singleton.1 hb]
        exact hplain b (Bool.not_eq_true _ ▸ hescape)

theorem noCTL_escapedPath (path rawPath : Bytes) : NoCTL (escapedPath path rawPath) :=
  fun c hc => (pathByte_iff.1 (escapedPath_bytes path rawPath c hc)).1.1

theorem requestDir_bytes (path rawPath : Bytes) :
    ∀ c ∈ requestDir (escapedPath path rawPath), (isCTL c = false ∧ c ≠ ch '\\') ∧ c ≠ ch '?' := by
  have hpath : ∀ c ∈ (if escapedPath path rawPath = [] then lit "/" else escapedPath path rawPath),
      pathByte c = true := by
    split
    · exact forall_mem_of_all (by decide)
    · exact escapedPath_bytes path rawPath
  intro c hc
  rw [← pathByte_iff]
  unfold requestDir pathDir at hc
  split at hc
  · rename_i dir after hcut
    rcases List.mem_append.1 hc with hc | hc
    · exact hpath c (mem_of_cutLast hcut c hc)
    · exact forall_mem_of_all (s := lit "/") (p := fun c => pathByte c = true) (by decide) c hc
  · exact absurd hc List.not_mem_nil

theorem noCTL_requestURI {u : Url} (hquery : NoCTL u.rawQuery) : NoCTL u.requestURI := by
  unfold Url.requestURI
  refine NoCTL.append ?_ ?_
  · split
    · intro c hc
      revert c
      exact forall_mem_of_all (by decide)
    · exact noCTL_escapedPath _ _
  · split
    · intro c hc
      rcases List.mem_cons.1 hc with rfl | hc
      · decide
      · exact hquery c hc
    · simp [NoCTL]

theorem noCTL_stripPort {host : Bytes} (h : validHostHeader host = true) : NoCTL (stripPort host) := by
  have hbyte : ∀ c, validHostByte c = true → isCTL c = false :=
    forall_byte (p := fun c => validHostByte c = true → isCTL c = false) (by decide +kernel)
  have hhost : NoCTL host := fun c hc => hbyte c (List.all_eq_true.1 h c hc)
  unfold stripPort
  split
  · rename_i before after hcut
    split
    · exact hhost
    · exact fun c hc => hhost c (mem_of_cutLast hcut c hc)
  · exact hhost

variable {target : Bytes}

/-- The literals of a template are made of its bytes. -/
theorem mem_of_literal {segs : List Segment} (h : parseRedirectTarget target = .ok segs) :
    ∀ text, Segment.literal text ∈ segs → ∀ c ∈ text, c ∈ target := by
  induction hn : target.length using Nat.strong_induction_on generalizing target segs with
  | _ n ih =>
    rw [parseRedirectTarget] at h
    split at h
    · cases h
      simp
    split at h
    · cases h
      simp
    · rename_i before rest hopen
      split at h
      · cases h
      · rename_i name after hclose
        split at h
        · cases h
        · rename_i p _
          have htarget := (splitAtByte_some hopen).1
          have hrest := (splitAtByte_some hclose).1
          cases htail : parseRedirectTarget after with
          | error err => simp [htail, Except.map] at h
          | ok tail =>
            simp only [htail, Except.map, Except.ok.injEq] at h
            subst h
            intro text hmem c hc
            rcases List.mem_append.1 hmem with hmem | hmem
            · split at hmem
              · cases hmem
              · rw [List.mem_singleton, Segment.literal.injEq] at hmem
                rw [htarget, ← hmem]
                exact List.mem_append_left _ hc
            · rcases List.mem_cons.1 hmem with hmem | hmem
              · cases hmem
              · have hlen : after.length < n := by
                  rw [← hn]
                  exact (splitAtByte_length hclose).trans (splitAtByte_length hopen)
                have hafter := ih after.length hlen htail rfl text hmem c hc
                rw [htarget, hrest]
                simp [hafter]

theorem tabsOnly_of_headerValue {s : Bytes} (h : headerValue s = .ok ()) : TabsOnly s := by
  intro c hc hctl
  unfold headerValue at h
  split at h
  · cases h
  · rename_i hfind
    rw [List.find?_eq_none] at hfind
    have hvalue := hfind c hc
    unfold isCTL at hctl
    grind

/-- The only control bytes of an expansion are the tabs of its template. -/
theorem tabsOnly_expand {segs : List Segment} {r : Request} (htabs : TabsOnly target)
    (hparse : parseRedirectTarget target = .ok segs) (hquery : NoCTL r.url.rawQuery)
    (hhost : validHostHeader r.host = true) : TabsOnly (expand segs r) := by
  have hnone : ∀ {s : Bytes}, NoCTL s → ∀ c ∈ s, isCTL c = true → c = 9 := by
    intro s hs c hc hctl
    rw [hs c hc] at hctl
    cases hctl
  intro c hc
  obtain ⟨seg, hseg, hc⟩ := List.mem_flatMap.1 hc
  cases seg with
  | literal text => exact htabs c (mem_of_literal hparse text hseg c hc)
  | placeholder p =>
    cases p with
    | requestURI => exact hnone (noCTL_requestURI hquery) c hc
    | path => exact hnone (noCTL_escapedPath _ _) c hc
    | query => exact hnone hquery c hc
    | host => exact hnone (noCTL_stripPort hhost) c hc

/-! ### The location -/

theorem escapePathPart_cons {b : UInt8} (hquery : b ≠ ch '?') (hback : b ≠ ch '\\') (s : Bytes) :
    escapePathPart (b :: s) = b :: escapePathPart s := by
  have hbefore : beforeQuery b = true := by simp [beforeQuery, hquery]
  rw [escapePathPart_eq, escapePathPart_eq, pathPart, List.takeWhile_cons_of_pos hbefore,
    List.dropWhile_cons_of_pos hbefore]
  simp [pathPart, escapeBackslashes, hback]

/-- What the relative branch leaves at the front: a backslash is escaped. -/
theorem head_escapePathPart (s : Bytes) :
    (escapePathPart s).head? = if s.head? = some (ch '\\') then some (ch '%') else s.head? := by
  cases s with
  | nil => rfl
  | cons b s =>
    by_cases hquery : b = ch '?'
    · rw [escapePathPart_eq, pathPart, hquery, List.takeWhile_cons_of_neg (by decide),
        List.dropWhile_cons_of_neg (by decide)]
      rfl
    · by_cases hback : b = ch '\\'
      · rw [escapePathPart_eq, pathPart, hback, List.takeWhile_cons_of_pos (by decide)]
        rfl
      · rw [escapePathPart_cons hquery hback]
        simp [hback]

variable {e : Bytes}

theorem redirectLocation_rooted (h : isRooted e = true) :
    redirectLocation true e = ch '/' :: escapePathPart (e.dropWhile isSlash) := by
  obtain ⟨t, rfl⟩ := (hasPrefix_iff _ _).1 h
  have hslash : isSlash (ch '/') = true := by decide
  have hdrop : (lit "/" ++ t).dropWhile isSlash = t.dropWhile isSlash := List.dropWhile_cons_of_pos hslash
  have hsafe : safeRedirectLocation (lit "/" ++ t) = ch '/' :: t.dropWhile isSlash := by
    cases t with
    | nil => rfl
    | cons b t =>
      show (if ch '/' = ch '/' ∧ isSlash b = true then ch '/' :: (ch '/' :: b :: t).dropWhile isSlash
        else ch '/' :: b :: t) = _
      rw [List.dropWhile_cons_of_pos hslash]
      split
      · rfl
      · rename_i hb
        rw [List.dropWhile_cons_of_neg fun hs => hb ⟨rfl, hs⟩]
  have hfirst : ∀ c, (t.dropWhile isSlash).head? = some c → isSlash c = false := by
    intro c hc
    have hnot := List.head?_dropWhile_not isSlash t
    rw [hc] at hnot
    simpa using hnot
  have hhead := head_escapePathPart (t.dropWhile isSlash)
  have hroot : isRootedPath (ch '/' :: escapePathPart (t.dropWhile isSlash)) = true := by
    have hne : ∀ b, isSlash b = true → (escapePathPart (t.dropWhile isSlash)).head? ≠ some b := by
      intro b hb hsome
      rw [hhead] at hsome
      split at hsome
      · rw [← Option.some.inj hsome] at hb
        exact absurd hb (by decide)
      · rw [hfirst b hsome] at hb
        cases hb
    cases hescaped : escapePathPart (t.dropWhile isSlash) with
    | nil => rfl
    | cons b u =>
      rw [hescaped] at hne
      have hb : isSlash b = false := by
        rw [Bool.eq_false_iff]
        exact fun hs => hne b hs rfl
      simp only [isSlash, Bool.or_eq_false_iff, beq_eq_false_iff_ne] at hb
      simp [isRootedPath, lit, hasPrefix, List.isPrefixOf, Ne.symm hb.1, Ne.symm hb.2]
  rw [redirectLocation, hsafe, hdrop]
  dsimp only
  rw [if_pos rfl, escapePathPart_cons (by decide) (by decide), hroot]
  rfl

theorem redirectLocation_unrooted (h : isRooted e = false) :
    redirectLocation true e = lit "./" ++ escapePathPart e := by
  have hfirst : e.head? ≠ some (ch '/') := by
    intro hhead
    obtain ⟨t, rfl⟩ := List.head?_eq_some_iff.1 hhead
    cases h
  have hsafe : safeRedirectLocation e = e := by
    cases e with
    | nil => rfl
    | cons a t =>
      cases t with
      | nil => rfl
      | cons b t => exact if_neg fun hab => hfirst (by rw [hab.1]; rfl)
  have hroot : isRootedPath (escapePathPart e) = false := by
    have hhead := head_escapePathPart e
    cases hescaped : escapePathPart e with
    | nil => rfl
    | cons b u =>
      rw [hescaped, List.head?_cons] at hhead
      have hb : b ≠ ch '/' := by
        rintro rfl
        split at hhead
        · exact absurd (Option.some.inj hhead) (by decide)
        · exact hfirst hhead.symm
      simp [isRootedPath, lit, hasPrefix, List.isPrefixOf, Ne.symm hb]
  rw [redirectLocation, hsafe]
  dsimp only
  rw [if_pos rfl, hroot]
  rfl

/-- The front of a text as a browser reads it: the tabs go, and a backslash is escaped. -/
theorem head_browserForm {s : Bytes} (h : TabsOnly s) :
    (browserForm (escapePathPart s)).head? = some (ch '/') ↔ (s.dropWhile (· == 9)).head? = some (ch '/') := by
  induction s with
  | nil => simp [escapePathPart_eq, pathPart, escapeBackslashes, browserForm]
  | cons b s ih =>
    obtain ⟨hb, hs⟩ := List.forall_mem_cons.1 h
    by_cases htab : b = 9
    · rw [htab, escapePathPart_cons (by decide) (by decide), List.dropWhile_cons_of_pos rfl, ← ih hs]
      rfl
    · rw [List.dropWhile_cons_of_neg (by simpa using htab)]
      have hhead := head_escapePathPart (b :: s)
      cases hescaped : escapePathPart (b :: s) with
      | nil =>
        rw [hescaped] at hhead
        split at hhead <;> cases hhead
      | cons a u =>
        have ha : isStripped a = false ∧ (a = b ∧ b ≠ ch '\\' ∨ a = ch '%' ∧ b = ch '\\') := by
          rw [hescaped, List.head?_cons, List.head?_cons] at hhead
          split at hhead
          · rename_i hback
            rw [Option.some.inj hhead]
            exact ⟨by decide, Or.inr ⟨rfl, Option.some.inj hback⟩⟩
          · rename_i hback
            rw [Option.some.inj hhead]
            refine ⟨?_, Or.inl ⟨rfl, fun hb => hback (congrArg some hb)⟩⟩
            unfold isCTL at hb
            unfold isStripped
            grind
        rw [browserForm_cons ha.1]
        rcases ha.2 with ⟨rfl, hne⟩ | ⟨rfl, rfl⟩
        · simp [hne]
        · rw [List.head?_cons, List.head?_cons]
          decide

/-- **One expansion.** -/
theorem sameOrigin_location {path rawPath : Bytes} (htabs : TabsOnly e) :
    SameOrigin (httpRedirect (escapedPath path rawPath) (redirectLocation true e)) ↔
      StaysOnOrigin (escapedPath path rawPath) e := by
  have hdir := requestDir_bytes path rawPath
  rw [httpRedirect, sameOrigin_hexEscape, StaysOnOrigin, joinedPath]
  cases hroot : isRooted e with
  | true =>
    have hloc := redirectLocation_rooted hroot
    have hscheme : hasScheme (redirectLocation true e) = false := by rw [hloc]; rfl
    rw [hscheme]
    cases hparses : urlParses (redirectLocation true e) with
    | true =>
      have hno : ch '\\' ∉ ch '/' :: pathPart (e.dropWhile isSlash) := by
        intro hmem
        rcases List.mem_cons.1 hmem with hmem | hmem
        · exact absurd hmem (by decide)
        · exact (pathPart_bytes hmem).1 rfl
      show SameOrigin (rebase _ _) ↔ _
      rw [rebase, hloc, if_pos (show hasPrefix (ch '/' :: _) (lit "/") = true from rfl)]
      exact (sameOrigin_rebased (a := [ch '/']) _ (by decide) rfl).trans (sameOrigin_cleanSlash hno)
    | false =>
      show SameOrigin (redirectLocation true e) ↔ ¬ TabbedSlash e
      have hdropped : TabsOnly (e.dropWhile isSlash) := fun c hc => htabs c ((List.dropWhile_sublist _).subset hc)
      rw [hloc, sameOrigin_slash, ne_eq, head_browserForm hdropped, TabbedSlash, hroot]
      simp
  | false =>
    have hloc := redirectLocation_unrooted hroot
    have hscheme : hasScheme (redirectLocation true e) = false := by rw [hloc]; rfl
    rw [hscheme]
    cases hparses : urlParses (redirectLocation true e) with
    | true =>
      have hno : ∀ b, b ∉ lit "./" → (b = ch '\\' ∨ b = ch '?') →
          b ∉ requestDir (escapedPath path rawPath) ++ lit "./" := by
        intro b hdot hb hmem
        rcases List.mem_append.1 hmem with hmem | hmem
        · rcases hb with rfl | rfl
          · exact (hdir _ hmem).1.2 rfl
          · exact (hdir _ hmem).2 rfl
        · exact hdot hmem
      have hback : ch '\\' ∉ requestDir (escapedPath path rawPath) ++ lit "./" ++ pathPart e := by
        intro hmem
        rcases List.mem_append.1 hmem with hmem | hmem
        · exact hno _ (by decide) (Or.inl rfl) hmem
        · exact (pathPart_bytes hmem).1 rfl
      show SameOrigin (rebase _ _) ↔ _
      rw [rebase, hloc, if_neg (show ¬ hasPrefix (lit "./" ++ _) (lit "/") = true from Bool.false_ne_true),
        ← List.append_assoc]
      refine (sameOrigin_rebased e (hno _ (by decide) (Or.inr rfl)) rfl).trans ?_
      rw [sameOrigin_cleanSlash hback, List.append_assoc]
      rfl
    | false =>
      show SameOrigin (redirectLocation true e) ↔ ¬ TabbedSlash e
      rw [hloc]
      refine iff_of_true (sameOrigin_cons _ (by decide) (by decide) (by decide)) ?_
      intro htabbed
      rw [TabbedSlash, hroot] at htabbed
      cases htabbed.1

/-! ### The redirects of a route -/

theorem resolveRedirect_ok {status : ℕ} {rd : ResolvedRedirect}
    (h : resolveRedirect target status = .ok rd) : rd.target = target ∧
      headerValue target = .ok () ∧ ∃ segs, parseRedirectTarget target = .ok segs := by
  simp only [resolveRedirect, bind, Except.bind, pure, Except.pure, throw, throwThe,
    MonadExceptOf.throw] at h
  split at h
  · cases h
  cases hvalue : headerValue target with
  | error err => simp [hvalue] at h
  | ok u =>
    cases hparse : parseRedirectTarget target with
    | error err => simp [hvalue, hparse] at h
    | ok segs =>
      cases hauthority : validateRedirectAuthority target segs with
      | error err => simp [hvalue, hparse, hauthority] at h
      | ok u =>
        simp only [hvalue, hparse, hauthority] at h
        split at h
        · cases h
        · cases h
          exact ⟨rfl, rfl, segs, rfl⟩

/-- **Relative redirects.**  For every accepted template without a scheme and every request, the `Location`
stays on the request's origin if and only if the expanded template does, read against the escaped path. -/
theorem relative_redirect_iff {target : Bytes} {status : ℕ} {rd : ResolvedRedirect}
    (hresolve : resolveRedirect target status = .ok rd) (hscheme : hasScheme target = false) (r : Request)
    (hquery : NoCTL r.url.rawQuery) (hhost : validHostHeader r.host = true) :
    SameOrigin (redirectRouteHandler rd r).2 ↔
      StaysOnOrigin (escapedPath r.url.path r.url.rawPath) (expand rd.segments r) := by
  obtain ⟨rfl, hvalue, segs, hparse⟩ := resolveRedirect_ok hresolve
  have hsegments : rd.segments = segs := by rw [ResolvedRedirect.segments, hparse]
  have htabs := tabsOnly_expand (tabsOnly_of_headerValue hvalue) hparse hquery hhost
  rw [redirectRouteHandler, hscheme, hsegments]
  exact sameOrigin_location htabs

theorem browserForm_ne_nil {f : Bytes} (hne : f ≠ []) (hctl : NoCTL f) : browserForm f ≠ [] := by
  obtain ⟨c, t, rfl⟩ := List.exists_cons_of_ne_nil hne
  have hstrip : isStripped c = false := by
    have hc := hctl c List.mem_cons_self
    unfold isCTL at hc
    unfold isStripped
    grind
  rw [browserForm_cons hstrip]
  exact List.cons_ne_nil _ _

theorem not_doubles {elems : List Bytes} (h : ∀ f ∈ elems, f ≠ [] ∧ NoCTL f) (trailing : Bool) :
    ¬ Doubles trailing elems := by
  cases elems with
  | nil => exact id
  | cons f more =>
    obtain ⟨hne, hctl⟩ := h f List.mem_cons_self
    exact fun hdoubles => browserForm_ne_nil hne hctl hdoubles.1

/-- **No tabs.**  Below a rooted path, every expansion without a tab stays on the origin. -/
theorem staysOnOrigin_of_noTab {path rawPath : Bytes} (hctl : NoCTL e)
    (hroot : isRooted (requestDir (escapedPath path rawPath)) = true) :
    StaysOnOrigin (escapedPath path rawPath) e := by
  have hpart : ∀ {t : Bytes}, (∀ c ∈ t, c ∈ e) → NoCTL (pathPart t) := by
    intro t ht c hc
    rcases (mem_escapeBackslashes hc).2 with hc | hc
    · exact hctl c (ht c ((List.takeWhile_sublist _).subset hc))
    · exact (percent5C_bytes c hc).1
  have hjoined : isRooted (joinedPath (escapedPath path rawPath) e) = true ∧
      NoCTL (joinedPath (escapedPath path rawPath) e) := by
    rw [joinedPath]
    split
    · refine ⟨rfl, NoCTL.append (s := [ch '/']) (forall_mem_of_all (by decide)) (hpart ?_)⟩
      exact fun c hc => (List.dropWhile_sublist _).subset hc
    · obtain ⟨t, ht⟩ := (hasPrefix_iff _ _).1 hroot
      refine ⟨?_, NoCTL.append (fun c hc => (requestDir_bytes path rawPath c hc).1.1)
        (NoCTL.append (forall_mem_of_all (by decide)) (hpart fun c hc => hc))⟩
      rw [isRooted, hasPrefix_iff, ← ht, List.append_assoc]
      exact List.prefix_append _ _
  rw [StaysOnOrigin, CleanStays, if_pos hjoined.1]
  split
  · refine not_doubles (fun f hf => ?_) _
    obtain ⟨hmem, hne⟩ := mem_cleanStack true (List.mem_reverse.1 hf)
    exact ⟨hne, fun c hc => hjoined.2 c (mem_of_mem_split hmem c hc)⟩
  · rintro ⟨-, hhead⟩
    have hslash := List.head?_dropWhile_not isSlash e
    cases hdrop : e.dropWhile isSlash with
    | nil =>
      rw [hdrop] at hhead
      cases hhead
    | cons c t =>
      have htab : c ≠ 9 := by
        rintro rfl
        have hmem : (9 : UInt8) ∈ e := (List.dropWhile_sublist isSlash).subset (hdrop ▸ List.mem_cons_self)
        exact absurd (hctl 9 hmem) (by decide)
      rw [hdrop, List.dropWhile_cons_of_neg (by simpa using htab)] at hhead
      rw [hdrop] at hslash
      rw [Option.some.inj hhead] at hslash
      have hfalse : isSlash (ch '/') = false := hslash
      exact absurd hfalse (by decide)

theorem parseRedirectTarget_literal (hne : target ≠ []) (h : ch '\x7b' ∉ target) :
    parseRedirectTarget target = .ok [.literal target] := by
  rw [parseRedirectTarget, if_neg hne]
  split
  · rfl
  · rename_i before rest hopen
    exact absurd (by simp [(splitAtByte_some hopen).1]) h

/-- A literal template without a scheme is accepted. -/
theorem resolveRedirect_literal (hne : target ≠ []) (h : ch '\x7b' ∉ target)
    (hvalue : headerValue target = .ok ()) (hscheme : hasScheme target = false) :
    resolveRedirect target 302 = .ok { target := target, status := 302 } := by
  have hlength : schemeLength target = none := by
    simpa [hasScheme] using hscheme
  have hstatus : 302 ∈ redirectStatuses := by decide
  simp [resolveRedirect, hne, hvalue, parseRedirectTarget_literal hne h, validateRedirectAuthority,
    hlength, hstatus, bind, Except.bind, pure, Except.pure]

theorem relative_redirect_iff_plain :
    SameOrigin (redirectRouteHandler { target := lit "next", status := 302 } { url := { path := lit "/a/b" } }).2 := by
  have hno : ch '\x7b' ∉ lit "next" := by decide
  refine (relative_redirect_iff (resolveRedirect_literal (by decide) hno (by decide) (by decide)) (by decide) _
    (by simp [NoCTL]) rfl).2 ?_
  rw [ResolvedRedirect.segments, parseRedirectTarget_literal (by decide) hno]
  exact staysOnOrigin_of_noTab (forall_mem_of_all (by decide)) (by decide)

/-- A tab behind the leading slash reaches the browser, which reads `//x`. -/
theorem tabbed_template_leaves_origin :
    resolveRedirect (lit "/\t/x") 302 = .ok { target := lit "/\t/x", status := 302 } ∧
      hasScheme (lit "/\t/x") = false ∧
      (redirectRouteHandler { target := lit "/\t/x", status := 302 } { url := { path := lit "/" } }).2 =
        lit "/\t/x" ∧
      ¬ SameOrigin (lit "/\t/x") := by
  have hno : ch '\x7b' ∉ lit "/\t/x" := by decide
  refine ⟨resolveRedirect_literal (by decide) hno (by decide) (by decide), by decide, ?_, by decide⟩
  rw [redirectRouteHandler, ResolvedRedirect.segments, parseRedirectTarget_literal (by decide) hno]
  decide

end Statute.Redirect
