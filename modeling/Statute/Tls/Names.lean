import Mathlib.Data.List.TakeWhile
import Statute.Base.TextSet

/-!
# TLS names

`canonicalTLSName` of `certrouter.go` and the name index of `tlsnames.go` that certificate, policy
and client-authentication selection share: exact names before single-label wildcards.

The IDNA lookup is a parameter that is only known on ASCII names (`Idna`).  On them the canonical
form is the lower-case name without surrounding space and trailing dots
(`canonicalTLSName_ascii`), so it does not depend on case or on trailing dots.
-/

namespace Statute.Tls

open Statute.Base

/-! ### Canonical names -/

/-- `idna.Lookup.ToASCII`: an ASCII name fails or comes back in lower case, possibly with a trailing
dot. -/
structure Idna where
  toASCII : Bytes → Option Bytes
  ascii : ∀ n, isASCII n = true →
    toASCII n = none ∨ toASCII n = some (toLower n) ∨ toASCII n = some (toLower n ++ lit ".")

/-- One round of `trimTLSName`. -/
def trimRound (name : Bytes) : Bytes := (cutSuffix (trimSpace name) (lit ".")).1

/-- The loop of `trimTLSName`; every round but the last one shortens the name. -/
def trimLoop : ℕ → Bytes → Bytes
  | 0, name => name
  | n + 1, name => if trimRound name = name then name else trimLoop n (trimRound name)

def trimTLSName (name : Bytes) : Bytes := trimLoop name.length name

def canonicalTLSName (idna : Idna) (name : Bytes) : Bytes :=
  let n := trimTLSName name
  let (mark, n) := if hasPrefix n (lit "*.") then (lit "*.", n.drop 2) else ([], n)
  match idna.toASCII n with
  | none => mark ++ toLower n
  | some a => trimTLSName (mark ++ toLower a)

/-! ### The index -/

/-- `tlsNameIndex`: names and wildcard patterns, each with its value. -/
structure NameIndex (β : Type) where
  exact : List (Bytes × β) := []
  wildcards : List (Bytes × β) := []
deriving DecidableEq

namespace NameIndex

variable {β : Type}

/-- `tlsNameIndex.add`: `none` when the name is claimed twice. -/
def add (idna : Idna) (index : NameIndex β) (pattern : Bytes) (value : β) : Option (NameIndex β) :=
  let name := canonicalTLSName idna pattern
  if hasPrefix name (lit "*.") then
    if (index.wildcards.lookup name).isSome then none
    else some { index with wildcards := index.wildcards ++ [(name, value)] }
  else if (index.exact.lookup name).isSome then none
  else some { index with exact := index.exact ++ [(name, value)] }

def lookupCanonical (index : NameIndex β) (host : Bytes) : Option β :=
  match index.exact.lookup host with
  | some value => some value
  | none =>
    match splitAtByte (ch '.') host with
    | some (_, rest) => if rest ≠ [] then index.wildcards.lookup (lit "*." ++ rest) else none
    | none => none

def lookup (idna : Idna) (index : NameIndex β) (name : Bytes) : Option β :=
  index.lookupCanonical (canonicalTLSName idna name)

end NameIndex

/-! ### ASCII names -/

/-- The name without leading space. -/
def stripLeft (s : Bytes) : Bytes := s.dropWhile isSpace1

/-- A byte that `trimTLSName` removes at the end. -/
def isTrailing (c : UInt8) : Bool := isSpace1 c || c == ch '.'

/-- The text without trailing bytes of a kind. -/
def stripRight (p : UInt8 → Bool) (s : Bytes) : Bytes := (s.reverse.dropWhile p).reverse

theorem isASCII_iff (s : Bytes) : isASCII s = true ↔ ∀ c ∈ s, c < 128 := by
  simp [isASCII]

variable {s : Bytes}

theorem isASCII_of_subset {t : Bytes} (ht : isASCII t = true) (h : ∀ c ∈ s, c ∈ t) :
    isASCII s = true :=
  (isASCII_iff s).2 (fun c hc => (isASCII_iff t).1 ht c (h c hc))

theorem not_isSpace2_of_ascii {c : UInt8} (d : UInt8) (h : c < 128) : isSpace2 c d = false := by
  have hc : (c == 0xC2) = false := by grind
  simp [isSpace2, hc]

theorem not_isSpace3_of_ascii {c : UInt8} (d e : UInt8) (h : c < 128) : isSpace3 c d e = false := by
  have hc : (c == 0xE1) = false ∧ (c == 0xE2) = false ∧ (c == 0xE3) = false := by grind
  simp [isSpace3, hc]

theorem trimLeft_ascii (h : ∀ c ∈ s, c < 128) : trimLeft s = stripLeft s := by
  induction s with
  | nil => rfl
  | cons c rest ih =>
    have hc := h c List.mem_cons_self
    have hrest := ih (fun d hd => h d (List.mem_cons_of_mem _ hd))
    by_cases hspace : isSpace1 c = true
    · rw [trimLeft.eq_def]
      simp only [hspace, if_true, hrest]
      simp [stripLeft, hspace]
    · have hstrip : stripLeft (c :: rest) = c :: rest := by simp [stripLeft, hspace]
      rw [hstrip, trimLeft.eq_def]
      simp only [if_neg hspace]
      rcases rest with _ | ⟨d, _ | ⟨e, rest⟩⟩ <;>
        simp [not_isSpace2_of_ascii _ hc, not_isSpace3_of_ascii _ _ hc]

theorem trimReversed_ascii (h : ∀ c ∈ s, c < 128) : trimReversed s = stripLeft s := by
  induction s with
  | nil => rfl
  | cons c rest ih =>
    have hrest := ih (fun d hd => h d (List.mem_cons_of_mem _ hd))
    by_cases hspace : isSpace1 c = true
    · rw [trimReversed.eq_def]
      simp only [hspace, if_true, hrest]
      simp [stripLeft, hspace]
    · have hstrip : stripLeft (c :: rest) = c :: rest := by simp [stripLeft, hspace]
      rw [hstrip, trimReversed.eq_def]
      simp only [if_neg hspace]
      rcases rest with _ | ⟨d, _ | ⟨e, rest⟩⟩
      · rfl
      · have hd := h d (by simp)
        simp [not_isSpace2_of_ascii _ hd]
      · have hd := h d (by simp)
        have he := h e (by simp)
        simp [not_isSpace2_of_ascii _ hd, not_isSpace3_of_ascii _ _ he]

theorem trimSpace_ascii (h : isASCII s = true) :
    trimSpace s = stripRight isSpace1 (stripLeft s) := by
  have hs := (isASCII_iff s).1 h
  have hleft : ∀ c ∈ (stripLeft s).reverse, c < 128 := fun c hc =>
    hs c ((List.dropWhile_sublist _).subset (List.mem_reverse.1 hc))
  rw [trimSpace, trimLeft_ascii hs, trimReversed_ascii hleft]
  rfl

/-- Removing from the end goes through what stands before bytes of that kind. -/
theorem stripRight_append {p : UInt8 → Bool} {t : Bytes} (h : ∀ c ∈ t, p c = true) :
    stripRight p (s ++ t) = stripRight p s := by
  have hall : t.reverse.dropWhile p = [] :=
    List.dropWhile_eq_nil_iff.2 (fun c hc => h c (List.mem_reverse.1 hc))
  rw [stripRight, List.reverse_append, List.dropWhile_append, hall]
  rfl

variable (p : UInt8 → Bool)

theorem stripRight_prefix (s : Bytes) : ∃ t, s = stripRight p s ++ t ∧ ∀ c ∈ t, p c = true := by
  refine ⟨(s.reverse.takeWhile p).reverse, ?_, ?_⟩
  · rw [stripRight, ← List.reverse_append, List.takeWhile_append_dropWhile, List.reverse_reverse]
  · intro c hc
    exact List.mem_takeWhile_imp (List.mem_reverse.1 hc)

theorem stripRight_idem (s : Bytes) : stripRight p (stripRight p s) = stripRight p s := by
  obtain ⟨t, ht, hall⟩ := stripRight_prefix p s
  calc stripRight p (stripRight p s) = stripRight p (stripRight p s ++ t) :=
        (stripRight_append hall).symm
    _ = stripRight p s := by rw [← ht]

/-- A round removes trailing bytes of a name without leading space. -/
theorem trimRound_ascii (h : isASCII s = true) :
    ∃ t, stripLeft s = trimRound s ++ t ∧ ∀ c ∈ t, isTrailing c = true := by
  obtain ⟨t, ht, hspace⟩ := stripRight_prefix isSpace1 (stripLeft s)
  rw [← trimSpace_ascii h] at ht
  have htrailing : ∀ c ∈ t, isTrailing c = true := fun c hc => by simp [isTrailing, hspace c hc]
  by_cases hdot : lit "." <:+ trimSpace s
  · obtain ⟨u, hu⟩ := hdot
    have hround : trimRound s = u := by rw [trimRound, ← hu, cutSuffix_append]
    refine ⟨lit "." ++ t, ?_, ?_⟩
    · rw [hround, ht, ← hu, List.append_assoc]
    · intro c hc
      rcases List.mem_append.1 hc with hc | hc
      · rw [List.mem_singleton.1 hc]
        decide
      · exact htrailing c hc
  · have hround : trimRound s = trimSpace s := by rw [trimRound, cutSuffix_of_not hdot]
    exact ⟨t, by rw [hround, ← ht], htrailing⟩

theorem stripLeft_of_stripped {t u : Bytes} (h : stripLeft s = t ++ u) : stripLeft t = t := by
  cases t with
  | nil => rfl
  | cons c t =>
    have hne : s.dropWhile isSpace1 ≠ [] := by
      rw [show s.dropWhile isSpace1 = c :: t ++ u from h]
      simp
    have hhead : isSpace1 ((s.dropWhile isSpace1).head hne) = false := List.head_dropWhile_not _ hne
    have hc : isSpace1 c = false := by
      simpa only [show s.dropWhile isSpace1 = c :: t ++ u from h, List.cons_append,
        List.head_cons] using hhead
    simp [stripLeft, hc]

theorem stripRight_subset (s : Bytes) : ∀ c ∈ stripRight p s, c ∈ s := fun _ hc =>
  List.mem_reverse.1 ((List.dropWhile_sublist _).subset (List.mem_reverse.1 hc))

theorem stripLeft_length_le (s : Bytes) : (stripLeft s).length ≤ s.length :=
  (List.dropWhile_sublist _).length_le

theorem stripRight_concat_of_not {p : UInt8 → Bool} {c : UInt8} (h : p c = false) (s : Bytes) :
    stripRight p (s ++ [c]) = s ++ [c] := by
  simp [stripRight, h]

theorem cutSuffix_length_le (s p : Bytes) : (cutSuffix s p).1.length ≤ s.length := by
  unfold cutSuffix
  split <;> simp

/-- A round that changes nothing found neither space nor dot at the end. -/
theorem stripRight_of_trimRound (h : isASCII s = true) (hround : trimRound s = s) :
    stripRight isTrailing s = s := by
  obtain ⟨t, ht, _⟩ := trimRound_ascii h
  have hstrip : stripLeft s = s := by
    rw [hround] at ht
    apply (List.dropWhile_sublist isSpace1).eq_of_length_le
    rw [show s.dropWhile isSpace1 = s ++ t from ht]
    simp
  have hspace : trimSpace s = stripRight isSpace1 s := by rw [trimSpace_ascii h, hstrip]
  rcases List.eq_nil_or_concat s with rfl | ⟨a, c, rfl⟩
  · rfl
  · rw [List.concat_eq_append] at *
    apply stripRight_concat_of_not
    rw [isTrailing, Bool.or_eq_false_iff, beq_eq_false_iff_ne]
    have hc : isSpace1 c = false := by
      by_contra hc
      have hshort : trimSpace (a ++ [c]) = stripRight isSpace1 a := by
        rw [hspace, stripRight_append (by simpa using hc)]
      have hle : (a ++ [c]).length ≤ (stripRight isSpace1 a).length := by
        rw [← hshort, ← congrArg List.length hround]
        exact cutSuffix_length_le _ _
      obtain ⟨u, hu, _⟩ := stripRight_prefix isSpace1 a
      have hlength := congrArg List.length hu
      rw [List.length_append] at hlength hle
      rw [List.length_singleton] at hle
      omega
    refine ⟨hc, ?_⟩
    rintro rfl
    have hdot : trimSpace (a ++ [ch '.']) = a ++ lit "." := by
      rw [hspace, stripRight_concat_of_not hc]
      rfl
    rw [trimRound, hdot, cutSuffix_append] at hround
    simp at hround

/-- The loop of `trimTLSName` on an ASCII name. -/
theorem trimLoop_ascii {n : ℕ} (hn : s.length ≤ n) (h : isASCII s = true) :
    trimLoop n s = stripRight isTrailing (stripLeft s) := by
  induction n generalizing s with
  | zero =>
    obtain rfl : s = [] := List.length_eq_zero_iff.1 (by omega)
    rfl
  | succ n ih =>
    obtain ⟨t, ht, htrailing⟩ := trimRound_ascii h
    have hstrip : stripRight isTrailing (stripLeft s) = stripRight isTrailing (trimRound s) := by
      rw [ht, stripRight_append htrailing]
    have hlength : (trimRound s).length + t.length ≤ s.length := by
      rw [← List.length_append, ← ht]
      exact stripLeft_length_le s
    rw [trimLoop]
    split
    · rename_i hsame
      rw [hstrip, hsame, stripRight_of_trimRound h hsame]
    · rename_i hchange
      have hshort : (trimRound s).length ≤ n := by
        by_contra hlong
        have hnil : t = [] := List.length_eq_zero_iff.1 (by omega)
        rw [hnil, List.append_nil] at ht
        have hsame : stripLeft s = s :=
          (List.dropWhile_sublist isSpace1).eq_of_length_le (by
            rw [show s.dropWhile isSpace1 = trimRound s from ht]
            omega)
        exact hchange (ht.symm.trans hsame)
      have hascii : isASCII (trimRound s) = true := by
        refine isASCII_of_subset h (fun c hc => ?_)
        have hmem : c ∈ stripLeft s := by
          rw [ht]
          exact List.mem_append_left _ hc
        exact (List.dropWhile_sublist _).subset hmem
      rw [ih hshort hascii, hstrip, stripLeft_of_stripped ht]

/-- **Trimming.** `trimTLSName` removes the space before an ASCII name and the spaces and dots after
it. -/
theorem trimTLSName_ascii (h : isASCII s = true) :
    trimTLSName s = stripRight isTrailing (stripLeft s) :=
  trimLoop_ascii (le_refl _) h

theorem mem_of_mem_trimTLSName (h : isASCII s = true) : ∀ c ∈ trimTLSName s, c ∈ s := by
  rw [trimTLSName_ascii h]
  intro c hc
  exact (List.dropWhile_sublist _).subset (stripRight_subset _ _ c hc)

theorem trimTLSName_idem (h : isASCII s = true) : trimTLSName (trimTLSName s) = trimTLSName s := by
  have htrim := trimTLSName_ascii h
  rw [trimTLSName_ascii (isASCII_of_subset h (mem_of_mem_trimTLSName h)), htrim]
  obtain ⟨t, ht, _⟩ := stripRight_prefix isTrailing (stripLeft s)
  rw [stripLeft_of_stripped ht, stripRight_idem]

/-- A trailing dot makes no difference. -/
theorem trimTLSName_dot (h : isASCII s = true) : trimTLSName (s ++ lit ".") = trimTLSName s := by
  have hdot : isASCII (s ++ lit ".") = true := by
    rw [isASCII_iff] at h ⊢
    intro c hc
    rcases List.mem_append.1 hc with hc | hc
    · exact h c hc
    · rw [List.mem_singleton.1 hc]
      decide
  have htrailing : ∀ c ∈ lit ".", isTrailing c = true :=
    forall_mem_of_all (by decide)
  rw [trimTLSName_ascii hdot, trimTLSName_ascii h, stripLeft, List.dropWhile_append]
  split
  · rename_i hempty
    rw [stripLeft, List.isEmpty_iff.1 hempty]
    decide
  · exact stripRight_append htrailing

theorem isSpace1_lowerByte (c : UInt8) : isSpace1 (lowerByte c) = isSpace1 c := by
  unfold isSpace1 lowerByte
  grind

theorem isTrailing_lowerByte (c : UInt8) : isTrailing (lowerByte c) = isTrailing c := by
  unfold isTrailing isSpace1 lowerByte
  grind [ch]

theorem isASCII_toLower (h : isASCII s = true) : isASCII (toLower s) = true := by
  rw [isASCII_iff] at h ⊢
  intro c hc
  obtain ⟨b, hb, rfl⟩ := List.mem_map.1 hc
  have hlow := h b hb
  unfold lowerByte
  grind

/-- Trimming and folding commute. -/
theorem trimTLSName_toLower (h : isASCII s = true) :
    trimTLSName (toLower s) = toLower (trimTLSName s) := by
  have hspace : isSpace1 ∘ lowerByte = isSpace1 := funext isSpace1_lowerByte
  have htrailing : isTrailing ∘ lowerByte = isTrailing := funext isTrailing_lowerByte
  rw [trimTLSName_ascii (isASCII_toLower h), trimTLSName_ascii h]
  simp only [stripRight, stripLeft, toLower, List.dropWhile_map, hspace, ← List.map_reverse,
    htrailing]

/-- **Canonical form.** Of an ASCII name: trimmed and in lower case. -/
theorem canonicalTLSName_ascii (idna : Idna) {name : Bytes} (h : isASCII name = true) :
    canonicalTLSName idna name = toLower (trimTLSName name) := by
  have hmem := mem_of_mem_trimTLSName h
  have hascii : isASCII (trimTLSName name) = true := isASCII_of_subset h hmem
  have hfix : trimTLSName (toLower (trimTLSName name)) = toLower (trimTLSName name) := by
    rw [trimTLSName_toLower hascii, trimTLSName_idem h]
  -- the wildcard mark is put back before what the lookup returns, so the name stands as it was
  have hmark : ∀ mark n : Bytes, toLower mark = mark → trimTLSName name = mark ++ n →
      (match idna.toASCII n with
        | none => mark ++ toLower n
        | some a => trimTLSName (mark ++ toLower a)) = toLower (trimTLSName name) := by
    intro mark n hlow heq
    have hn : isASCII n = true :=
      isASCII_of_subset hascii (fun c hc => by rw [heq]; exact List.mem_append_right _ hc)
    have hwhole : mark ++ toLower n = toLower (trimTLSName name) := by
      rw [heq, toLower_append, hlow]
    rcases idna.ascii n hn with hidna | hidna | hidna
    · simp only [hidna, hwhole]
    · simp only [hidna, toLower_idem, hwhole, hfix]
    · have hdot : toLower (toLower n ++ lit ".") = toLower n ++ lit "." := by
        rw [toLower_append, toLower_idem]
        rfl
      simp only [hidna, hdot]
      rw [← List.append_assoc, hwhole, trimTLSName_dot (isASCII_toLower hascii), hfix]
  unfold canonicalTLSName
  by_cases hstar : hasPrefix (trimTLSName name) (lit "*.") = true
  · simp only [if_pos hstar]
    obtain ⟨t, ht⟩ := (hasPrefix_iff _ _).1 hstar
    refine hmark (lit "*.") _ (by decide) ?_
    rw [← ht]
    rfl
  · simp only [if_neg hstar]
    exact hmark [] _ rfl rfl

theorem canonicalTLSName_idem (idna : Idna) {name : Bytes} (h : isASCII name = true) :
    canonicalTLSName idna (canonicalTLSName idna name) = canonicalTLSName idna name := by
  have htrim : isASCII (trimTLSName name) = true := isASCII_of_subset h (mem_of_mem_trimTLSName h)
  rw [canonicalTLSName_ascii idna h, canonicalTLSName_ascii idna (isASCII_toLower htrim),
    trimTLSName_toLower htrim, trimTLSName_idem h, toLower_idem]

/-- A byte that is neither trimmed nor folded stays in the canonical name. -/
theorem mem_canonicalTLSName (idna : Idna) {name : Bytes} (h : isASCII name = true) {c : UInt8}
    (hc : isTrailing c = false) (hlow : lowerByte c = c) (hmem : c ∈ name) :
    c ∈ canonicalTLSName idna name := by
  rw [canonicalTLSName_ascii idna h, trimTLSName_ascii h]
  refine List.mem_map.2 ⟨c, ?_, hlow⟩
  have hspace : isSpace1 c = false := (Bool.or_eq_false_iff.1 hc).1
  have hleft : c ∈ stripLeft name := by
    rw [← List.takeWhile_append_dropWhile (p := isSpace1) (l := name)] at hmem
    rcases List.mem_append.1 hmem with hmem | hmem
    · rw [List.mem_takeWhile_imp hmem] at hspace
      cases hspace
    · exact hmem
  obtain ⟨t, ht, htrailing⟩ := stripRight_prefix isTrailing (stripLeft name)
  rw [ht] at hleft
  rcases List.mem_append.1 hleft with hleft | hleft
  · exact hleft
  · rw [htrailing c hleft] at hc
    cases hc

/-- A byte that stands in the canonical name, stands in the name, up to case. -/
theorem of_mem_canonicalTLSName {idna : Idna} {name : Bytes} (h : isASCII name = true) {c : UInt8}
    (hmem : c ∈ canonicalTLSName idna name) : ∃ b ∈ name, lowerByte b = c := by
  rw [canonicalTLSName_ascii idna h] at hmem
  obtain ⟨b, hb, hlow⟩ := List.mem_map.1 hmem
  exact ⟨b, mem_of_mem_trimTLSName h b hb, hlow⟩

end Statute.Tls
