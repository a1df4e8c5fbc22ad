import Mathlib.Data.List.Basic
import Mathlib.Data.List.Infix
import Mathlib.Data.List.Lex
import Mathlib.Tactic

/-!
# Byte strings

A Go string is a finite sequence of bytes.  This file fixes that representation and gives the
operations of the `strings` package that byte-oriented code uses, each with the few rewriting
lemmas its callers need:

* prefixes and suffixes (`hasPrefix`, `hasSuffix`, `cutPrefix`, `cutSuffix`) and their list forms;
* searching (`containsAny`, `indexByte`, `cut`, `split`);
* case folding (`toLower`, `equalFold`) over the ASCII letters, the range on which the byte map
  and the Unicode tables agree;
* `trimSpace`, over the UTF-8 encodings of every code point with the White_Space property.

Nothing here mentions a particular program.
-/

namespace Statute.Base

/-- A Go string. -/
abbrev Bytes := List UInt8

/-- The byte of an ASCII character. -/
def ch (c : Char) : UInt8 := UInt8.ofNat c.toNat

/-- The bytes of an ASCII literal. -/
def lit (s : String) : Bytes := s.toList.map ch

/-- Bytes compare as numbers, and so texts compare as Go strings do. -/
instance byteLinearOrder : LinearOrder UInt8 where
  le_refl := UInt8.le_refl
  le_trans _ _ _ := UInt8.le_trans
  le_antisymm _ _ := UInt8.le_antisymm
  le_total := UInt8.le_total
  lt_iff_le_not_ge a b := by
    rw [UInt8.not_le]
    exact ⟨fun h => ⟨UInt8.le_of_lt h, h⟩, fun h => h.2⟩
  toDecidableLE := inferInstance

/-! ### Prefixes and suffixes -/

/-- `strings.HasPrefix`. -/
def hasPrefix (s p : Bytes) : Bool := p.isPrefixOf s

/-- `strings.HasSuffix`. -/
def hasSuffix (s p : Bytes) : Bool := p.isSuffixOf s

/-- `strings.CutPrefix`: the rest and whether the text started with `p`. -/
def cutPrefix (s p : Bytes) : Bytes × Bool :=
  if hasPrefix s p then (s.drop p.length, true) else (s, false)

/-- `strings.CutSuffix`: the text before `p` and whether it ended with `p`. -/
def cutSuffix (s p : Bytes) : Bytes × Bool :=
  if hasSuffix s p then (s.take (s.length - p.length), true) else (s, false)

variable (s : Bytes)

@[simp] theorem hasPrefix_iff (p : Bytes) : hasPrefix s p = true ↔ p <+: s := by
  simp [hasPrefix]

@[simp] theorem hasSuffix_iff (p : Bytes) : hasSuffix s p = true ↔ p <:+ s := by
  simp [hasSuffix]

theorem cutSuffix_append (p : Bytes) : cutSuffix (s ++ p) p = (s, true) := by
  have h : hasSuffix (s ++ p) p = true := (hasSuffix_iff _ _).2 (List.suffix_append s p)
  simp [cutSuffix, h]

theorem cutSuffix_of_not {s p : Bytes} (h : ¬ p <:+ s) : cutSuffix s p = (s, false) := by
  have h' : hasSuffix s p = false := by
    rw [Bool.eq_false_iff, ne_eq, hasSuffix_iff]
    exact h
  simp [cutSuffix, h']

/-! ### Searching -/

/-- `strings.ContainsAny`. -/
def containsAny (s chars : Bytes) : Bool := s.any (fun c => chars.contains c)

/-- `strings.Contains` for a one-byte needle. -/
def containsByte (s : Bytes) (c : UInt8) : Bool := s.contains c

/-- `strings.IndexByte` on the rest of a text: the bytes before the first `c` and those after. -/
def splitAtByte (c : UInt8) : Bytes → Option (Bytes × Bytes)
  | [] => none
  | b :: bs => if b = c then some ([], bs) else (splitAtByte c bs).map (fun r => (b :: r.1, r.2))

/-- `strings.Cut` for a one-byte separator. -/
def cut (s : Bytes) (c : UInt8) : Bytes × Bytes × Bool :=
  match splitAtByte c s with
  | some (before, after) => (before, after, true)
  | none => (s, [], false)

/-- `strings.Split` for a one-byte separator; the result is never empty. -/
def split (c : UInt8) : Bytes → List Bytes
  | [] => [[]]
  | b :: bs =>
    if b = c then [] :: split c bs
    else match split c bs with
      | [] => [[b]]
      | w :: ws => (b :: w) :: ws

/-- `isASCII`: every byte is below `utf8.RuneSelf`. -/
def isASCII (s : Bytes) : Bool := s.all (fun c => c < 128)

variable {c : UInt8}

/-- The cut at the first `c`. -/
theorem splitAtByte_eq_some_iff {s before after : Bytes} :
    splitAtByte c s = some (before, after) ↔ c ∉ before ∧ s = before ++ c :: after := by
  induction s generalizing before with
  | nil => simp [splitAtByte]
  | cons b bs ih =>
    rw [splitAtByte]
    by_cases hb : b = c
    · rw [if_pos hb]
      cases before with
      | nil => simp [hb]
      | cons x before =>
        simp only [Option.some.injEq, Prod.mk.injEq, reduceCtorEq, false_and, List.mem_cons, not_or,
          List.cons_append, List.cons.injEq, false_iff, not_and]
        intro hx hbx
        exact absurd (hb ▸ hbx) hx.1
    · rw [if_neg hb]
      cases before with
      | nil => simp [hb]
      | cons x before =>
        simp only [Option.map_eq_some_iff, Prod.mk.injEq, List.cons.injEq, Prod.exists]
        constructor
        · rintro ⟨w, t, hcut, ⟨rfl, rfl⟩, rfl⟩
          obtain ⟨hnot, rfl⟩ := ih.mp hcut
          refine ⟨?_, by simp⟩
          rw [List.mem_cons, not_or]
          exact ⟨fun h => hb h.symm, hnot⟩
        · rintro ⟨hnot, hs⟩
          rw [List.mem_cons, not_or] at hnot
          rw [List.cons_append, List.cons.injEq] at hs
          exact ⟨before, after, ih.mpr ⟨hnot.2, hs.2⟩, ⟨hs.1, rfl⟩, rfl⟩

theorem splitAtByte_length {s before after : Bytes} (h : splitAtByte c s = some (before, after)) :
    after.length < s.length := by
  induction s generalizing before after with
  | nil => simp [splitAtByte] at h
  | cons b bs ih =>
      simp only [splitAtByte] at h
      split at h
      · simp only [Option.some.injEq, Prod.mk.injEq] at h
        rw [← h.2]
        simp
      · rw [Option.map_eq_some_iff] at h
        obtain ⟨r, hr, hpair⟩ := h
        simp only [Prod.mk.injEq] at hpair
        have := ih hr
        rw [← hpair.2, List.length_cons]
        omega

/-! ### Case -/

/-- The lower-case form of one ASCII byte. -/
def lowerByte (c : UInt8) : UInt8 := if 65 ≤ c ∧ c ≤ 90 then c + 32 else c

/-- `strings.ToLower` over ASCII letters. -/
def toLower (s : Bytes) : Bytes := s.map lowerByte

/-- `strings.EqualFold` over ASCII letters. -/
def equalFold (a b : Bytes) : Bool := toLower a == toLower b

/-- A property of bytes is checked on the 256 of them. -/
theorem forall_byte {p : UInt8 → Prop} (h : ∀ n : Fin 256, p (UInt8.ofFin n)) (c : UInt8) :
    p c := by
  simpa using h c.toFin

/-- A property of the bytes of a text, checked byte by byte. -/
theorem forall_mem_of_all {p : UInt8 → Prop} [DecidablePred p] {s : Bytes}
    (h : s.all (fun c => decide (p c)) = true) : ∀ c ∈ s, p c := by
  intro c hc
  exact of_decide_eq_true (List.all_eq_true.1 h c hc)

theorem lowerByte_idem (c : UInt8) : lowerByte (lowerByte c) = lowerByte c := by
  unfold lowerByte
  grind

@[simp] theorem toLower_idem : toLower (toLower s) = toLower s := by
  simp [toLower, lowerByte_idem]

@[simp] theorem toLower_append (t : Bytes) : toLower (s ++ t) = toLower s ++ toLower t := by
  simp [toLower]

@[simp] theorem toLower_length : (toLower s).length = s.length := by
  simp [toLower]

@[simp] theorem toLower_eq_nil : toLower s = [] ↔ s = [] := by
  simp [toLower]

@[simp] theorem equalFold_iff (a b : Bytes) : equalFold a b = true ↔ toLower a = toLower b := by
  simp [equalFold]

/-! ### Texts outside ASCII -/

/-- A text in the form that is compared with an ASCII text: ASCII letters and the Kelvin sign fold to
lower case, and so does one more character, given by its two bytes. -/
def foldText (lead trail letter : UInt8) : Bytes → Bytes
  | [] => []
  | [c] => [lowerByte c]
  | [c, d] => if c = lead ∧ d = trail then [letter] else [lowerByte c, lowerByte d]
  | c :: d :: e :: rest =>
    if c = 0xE2 ∧ d = 0x84 ∧ e = 0xAA then ch 'k' :: foldText lead trail letter rest
    else if c = lead ∧ d = trail then letter :: foldText lead trail letter (e :: rest)
    else lowerByte c :: foldText lead trail letter (d :: e :: rest)

/-- `strings.ToLower`, as far as an ASCII text can equal the result: the capital I with a dot (U+0130)
becomes `i`. -/
def lowerText (s : Bytes) : Bytes := foldText 0xC4 0xB0 (ch 'i') s

theorem foldText_ascii {lead trail letter : UInt8} (hlead : 128 ≤ lead) {s : Bytes}
    (h : isASCII s = true) : foldText lead trail letter s = toLower s := by
  have hbyte : ∀ c ∈ s, c < 128 := by simpa [isASCII] using h
  induction s using foldText.induct lead trail with
  | case1 => rfl
  | case2 c => rfl
  | case3 c d hspecial =>
    have := hbyte c (by simp)
    grind
  | case4 c d hspecial => simp [foldText, hspecial, toLower]
  | case5 c d e rest hkelvin ih =>
    have := hbyte c (by simp)
    grind
  | case6 c d e rest hkelvin hspecial ih =>
    have := hbyte c (by simp)
    grind
  | case7 c d e rest hkelvin hspecial ih =>
    have hrest : ∀ b ∈ d :: e :: rest, b < 128 := fun b hb => hbyte b (List.mem_cons_of_mem c hb)
    rw [foldText, if_neg hkelvin, if_neg hspecial, ih (by simpa [isASCII] using hrest) hrest]
    rfl

theorem toLower_foldText {lead trail letter : UInt8} (hletter : lowerByte letter = letter) (s : Bytes) :
    toLower (foldText lead trail letter s) = foldText lead trail letter s := by
  have hk : lowerByte (ch 'k') = ch 'k' := by decide
  induction s using foldText.induct lead trail with
  | case1 => rfl
  | case2 c => simp [foldText, toLower, lowerByte_idem]
  | case3 c d hspecial => simp [foldText, hspecial, toLower, hletter]
  | case4 c d hspecial => simp [foldText, hspecial, toLower, lowerByte_idem]
  | case5 c d e rest hkelvin ih =>
    rw [foldText, if_pos hkelvin, toLower, List.map_cons, hk]
    exact congrArg _ ih
  | case6 c d e rest hkelvin hspecial ih =>
    rw [foldText, if_neg hkelvin, if_pos hspecial, toLower, List.map_cons, hletter]
    exact congrArg _ ih
  | case7 c d e rest hkelvin hspecial ih =>
    rw [foldText, if_neg hkelvin, if_neg hspecial, toLower, List.map_cons, lowerByte_idem]
    exact congrArg _ ih

/-! ### Numbers and Booleans -/

/-- Value of a decimal digit. -/
def decDigit (c : UInt8) : Option ℕ := if 48 ≤ c ∧ c ≤ 57 then some (c.toNat - 48) else none

/-- Value of a digit string in a base, most significant digit first. -/
def digitsValue (digit : UInt8 → Option ℕ) (base : ℕ) : ℕ → Bytes → Option ℕ
  | acc, [] => some acc
  | acc, c :: cs =>
    match digit c with
    | none => none
    | some d => digitsValue digit base (acc * base + d) cs

/-- An unsigned decimal number with at least one digit. -/
def parseDecimal (s : Bytes) : Option ℕ := if s = [] then none else digitsValue decDigit 10 0 s

/-- `strconv.Atoi` on a 64-bit platform: an optional sign, decimal digits, in range. -/
def atoi (s : Bytes) : Option ℤ :=
  match s with
  | [] => none
  | c :: rest =>
    if c = ch '-' then
      match parseDecimal rest with
      | some n => if n ≤ 2 ^ 63 then some (-(n : ℤ)) else none
      | none => none
    else
      match parseDecimal (if c = ch '+' then rest else s) with
      | some n => if n < 2 ^ 63 then some (n : ℤ) else none
      | none => none

/-- `strconv.ParseBool`. -/
def parseBool (s : Bytes) : Option Bool :=
  if [lit "1", lit "t", lit "T", lit "TRUE", lit "true", lit "True"].contains s then some true
  else if [lit "0", lit "f", lit "F", lit "FALSE", lit "false", lit "False"].contains s then
    some false
  else none

/-- Decimal text of a number. -/
def decText (n : ℕ) : Bytes := (Nat.toDigits 10 n).map ch

/-! ### White space -/

/-- The ASCII White_Space bytes. -/
def isSpace1 (c : UInt8) : Bool := c == 9 || c == 10 || c == 11 || c == 12 || c == 13 || c == 32

/-- The two-byte White_Space code points: U+0085 and U+00A0. -/
def isSpace2 (c d : UInt8) : Bool := c == 0xC2 && (d == 0x85 || d == 0xA0)

/-- The three-byte White_Space code points: U+1680, U+2000 to U+200A, U+2028, U+2029, U+202F, U+205F
and U+3000. -/
def isSpace3 (c d e : UInt8) : Bool :=
  (c == 0xE1 && d == 0x9A && e == 0x80) ||
    (c == 0xE2 && d == 0x80 && ((0x80 ≤ e && e ≤ 0x8A) || e == 0xA8 || e == 0xA9 || e == 0xAF)) ||
    (c == 0xE2 && d == 0x81 && e == 0x9F) || (c == 0xE3 && d == 0x80 && e == 0x80)

/-- Drop leading White_Space code points. -/
def trimLeft : Bytes → Bytes
  | [] => []
  | c :: rest =>
    if isSpace1 c then trimLeft rest
    else match rest with
      | d :: rest' =>
        if isSpace2 c d then trimLeft rest'
        else match rest' with
          | e :: rest'' => if isSpace3 c d e then trimLeft rest'' else c :: d :: e :: rest''
          | [] => [c, d]
      | [] => [c]

/-- Drop trailing White_Space code points from a reversed text. -/
def trimReversed : Bytes → Bytes
  | [] => []
  | c :: rest =>
    if isSpace1 c then trimReversed rest
    else match rest with
      | d :: rest' =>
        if isSpace2 d c then trimReversed rest'
        else match rest' with
          | e :: rest'' => if isSpace3 e d c then trimReversed rest'' else c :: d :: e :: rest''
          | [] => [c, d]
      | [] => [c]

/-- `strings.TrimSpace`. -/
def trimSpace (s : Bytes) : Bytes := (trimReversed (trimLeft s).reverse).reverse

/-- A printing ASCII byte. -/
def graphic (c : UInt8) : Bool := 32 < c && c < 128

theorem graphic_isSpace1 (h : isSpace1 c = true) : graphic c = false := by
  unfold isSpace1 at h
  unfold graphic
  grind

theorem graphic_of_ge (h : 128 ≤ c) : graphic c = false := by
  unfold graphic
  grind

theorem graphic_isSpace2 {d : UInt8} (h : isSpace2 c d = true) :
    graphic c = false ∧ graphic d = false := by
  simp only [isSpace2, Bool.and_eq_true, Bool.or_eq_true, beq_iff_eq] at h
  rcases h with ⟨rfl, rfl | rfl⟩ <;> decide

theorem graphic_isSpace3 {d e : UInt8} (h : isSpace3 c d e = true) :
    graphic c = false ∧ graphic d = false ∧ graphic e = false := by
  simp only [isSpace3, Bool.and_eq_true, Bool.or_eq_true, beq_iff_eq, decide_eq_true_eq] at h
  rcases h with ((⟨⟨rfl, rfl⟩, rfl⟩ | ⟨⟨rfl, rfl⟩, ((h | rfl) | rfl) | rfl⟩) | ⟨⟨rfl, rfl⟩, rfl⟩) |
    ⟨⟨rfl, rfl⟩, rfl⟩
  case inl.inl.inr.inl.inl.inl => exact ⟨by decide, by decide, graphic_of_ge h.1⟩
  all_goals decide

/-- What remains of a text behind blank bytes. -/
def Behind (s rest : Bytes) : Prop := ∃ blank, s = blank ++ rest ∧ ∀ b ∈ blank, graphic b = false

theorem Behind.refl : Behind s s := ⟨[], rfl, by simp⟩

theorem Behind.cons {s rest : Bytes} (h : Behind s rest) (hc : graphic c = false) :
    Behind (c :: s) rest := by
  obtain ⟨blank, rfl, hblank⟩ := h
  exact ⟨c :: blank, rfl, List.forall_mem_cons.2 ⟨hc, hblank⟩⟩

/-- What is trimmed on the left is blank, and what remains is trimmed. -/
theorem trimLeft_spec : Behind s (trimLeft s) ∧ trimLeft (trimLeft s) = trimLeft s := by
  fun_induction trimLeft s with
  | case1 => exact ⟨.refl _, rfl⟩
  | case2 c rest hc ih => exact ⟨ih.1.cons (graphic_isSpace1 hc), ih.2⟩
  | case3 c hc d rest hcd ih =>
    exact ⟨(ih.1.cons (graphic_isSpace2 hcd).2).cons (graphic_isSpace2 hcd).1, ih.2⟩
  | case4 c hc d hcd e rest he ih =>
    obtain ⟨hc, hd, he⟩ := graphic_isSpace3 he
    exact ⟨((ih.1.cons he).cons hd).cons hc, ih.2⟩
  | case5 c hc d hcd e rest he => exact ⟨.refl _, by simp [trimLeft, hc, hcd, he]⟩
  | case6 c hc d hcd => exact ⟨.refl _, by simp [trimLeft, hc, hcd]⟩
  | case7 c hc => exact ⟨.refl _, by simp [trimLeft, hc]⟩

theorem trimReversed_spec :
    Behind s (trimReversed s) ∧ trimReversed (trimReversed s) = trimReversed s := by
  fun_induction trimReversed s with
  | case1 => exact ⟨.refl _, rfl⟩
  | case2 c rest hc ih => exact ⟨ih.1.cons (graphic_isSpace1 hc), ih.2⟩
  | case3 c hc d rest hcd ih =>
    exact ⟨(ih.1.cons (graphic_isSpace2 hcd).1).cons (graphic_isSpace2 hcd).2, ih.2⟩
  | case4 c hc d hcd e rest he ih =>
    obtain ⟨he, hd, hc⟩ := graphic_isSpace3 he
    exact ⟨((ih.1.cons he).cons hd).cons hc, ih.2⟩
  | case5 c hc d hcd e rest he => exact ⟨.refl _, by simp [trimReversed, hc, hcd, he]⟩
  | case6 c hc d hcd => exact ⟨.refl _, by simp [trimReversed, hc, hcd]⟩
  | case7 c hc => exact ⟨.refl _, by simp [trimReversed, hc]⟩

theorem trimLeft_suffix : trimLeft s <:+ s := by
  obtain ⟨⟨blank, hs, -⟩, -⟩ := trimLeft_spec s
  exact ⟨blank, hs.symm⟩

theorem trimReversed_suffix : trimReversed s <:+ s := by
  obtain ⟨⟨blank, hs, -⟩, -⟩ := trimReversed_spec s
  exact ⟨blank, hs.symm⟩

/-- A printing byte stays where only blank bytes go. -/
theorem mem_of_blank {b : UInt8} (hb : graphic b = true) {s blank rest : Bytes} (hs : s = blank ++ rest)
    (hblank : ∀ b ∈ blank, graphic b = false) (h : b ∈ s) : b ∈ rest := by
  rw [hs, List.mem_append] at h
  refine h.resolve_left fun hmem => ?_
  rw [hblank b hmem] at hb
  cases hb

/-- Trimming keeps every printing ASCII byte. -/
theorem mem_trimSpace {b : UInt8} (hb : graphic b = true) {s : Bytes} (h : b ∈ s) :
    b ∈ trimSpace s := by
  obtain ⟨⟨left, hleft, hleftBlank⟩, -⟩ := trimLeft_spec s
  obtain ⟨⟨right, hright, hrightBlank⟩, -⟩ := trimReversed_spec (trimLeft s).reverse
  rw [trimSpace, List.mem_reverse]
  exact mem_of_blank hb hright hrightBlank (List.mem_reverse.2 (mem_of_blank hb hleft hleftBlank h))

theorem mem_of_mem_trimSpace {b : UInt8} {s : Bytes} (h : b ∈ trimSpace s) : b ∈ s := by
  rw [trimSpace, List.mem_reverse] at h
  exact (trimLeft_suffix s).mem (List.mem_reverse.1 ((trimReversed_suffix _).mem h))

/-- What is left alone starts with no white space. -/
theorem trimLeft_eq_self_iff : trimLeft s = s ↔
    (∀ c rest, s = c :: rest → isSpace1 c = false) ∧
      (∀ c d rest, s = c :: d :: rest → isSpace2 c d = false) ∧
      ∀ c d e rest, s = c :: d :: e :: rest → isSpace3 c d e = false := by
  constructor
  · intro h
    have hshort : ∀ t : Bytes, t.length < s.length → trimLeft s ≠ trimLeft t := by
      intro t ht heq
      have hle := (trimLeft_suffix t).length_le
      rw [← heq, h] at hle
      omega
    have hone : ∀ c rest, s = c :: rest → isSpace1 c = false := by
      intro c rest hs
      rw [← Bool.not_eq_true]
      intro hc
      refine hshort rest (by rw [hs, List.length_cons]; omega) ?_
      rw [hs, trimLeft.eq_def]
      simp only [hc, if_true]
    have htwo : ∀ c d rest, s = c :: d :: rest → isSpace2 c d = false := by
      intro c d rest hs
      rw [← Bool.not_eq_true]
      intro hcd
      refine hshort rest (by rw [hs, List.length_cons, List.length_cons]; omega) ?_
      rw [hs, trimLeft.eq_def]
      simp only [hone c (d :: rest) hs, Bool.false_eq_true, if_false, hcd, if_true]
    refine ⟨hone, htwo, fun c d e rest hs => ?_⟩
    rw [← Bool.not_eq_true]
    intro he
    refine hshort rest (by rw [hs, List.length_cons, List.length_cons, List.length_cons]; omega) ?_
    rw [hs, trimLeft.eq_def]
    simp only [hone c _ hs, htwo c d _ hs, Bool.false_eq_true, if_false, he, if_true]
  · rintro ⟨h1, h2, h3⟩
    match s with
    | [] => rfl
    | [c] => simp [trimLeft, h1 c [] rfl]
    | [c, d] => simp [trimLeft, h1 c [d] rfl, h2 c d [] rfl]
    | c :: d :: e :: rest =>
      simp [trimLeft, h1 c (d :: e :: rest) rfl, h2 c d (e :: rest) rfl, h3 c d e rest rfl]

/-- The front of a text that starts with no white space starts with none. -/
theorem trimLeft_of_isPrefix {p s : Bytes} (hp : p <+: s) (h : trimLeft s = s) : trimLeft p = p := by
  obtain ⟨t, rfl⟩ := hp
  obtain ⟨hone, htwo, hthree⟩ := (trimLeft_eq_self_iff _).mp h
  refine (trimLeft_eq_self_iff p).mpr ⟨?_, ?_, ?_⟩
  · rintro c rest rfl
    exact hone c (rest ++ t) rfl
  · rintro c d rest rfl
    exact htwo c d (rest ++ t) rfl
  · rintro c d e rest rfl
    exact hthree c d e (rest ++ t) rfl

/-- **Trimming** twice is trimming once. -/
theorem trimSpace_idem : trimSpace (trimSpace s) = trimSpace s := by
  obtain ⟨-, hidemLeft⟩ := trimLeft_spec s
  obtain ⟨-, hidemRight⟩ := trimReversed_spec (trimLeft s).reverse
  have hleft : trimLeft (trimSpace s) = trimSpace s := by
    refine trimLeft_of_isPrefix (s := trimLeft s) ?_ hidemLeft
    rw [trimSpace, ← List.reverse_suffix, List.reverse_reverse]
    exact trimReversed_suffix _
  rw [trimSpace, hleft, trimSpace, List.reverse_reverse, hidemRight]

/-- A piece of a split text does not hold the separator. -/
theorem not_mem_of_mem_split {s w : Bytes} (h : w ∈ split c s) : c ∉ w := by
  induction s generalizing w with
  | nil =>
    rw [split, List.mem_singleton] at h
    simp [h]
  | cons b bs ih =>
    simp only [split] at h
    split at h
    · rcases List.mem_cons.1 h with rfl | h
      · simp
      · exact ih h
    · rename_i hb
      split at h
      · rw [List.mem_singleton.1 h, List.mem_singleton]
        exact fun hc => hb hc.symm
      · rename_i w' ws hsplit
        rcases List.mem_cons.1 h with rfl | h
        · rw [List.mem_cons, not_or]
          exact ⟨fun hc => hb hc.symm, ih (hsplit ▸ List.mem_cons_self)⟩
        · exact ih (hsplit ▸ List.mem_cons_of_mem _ h)

theorem split_ne_nil (c : UInt8) (s : Bytes) : split c s ≠ [] := by
  cases s with
  | nil => simp [split]
  | cons b bs =>
    simp only [split]
    split
    · simp
    · split <;> simp

theorem split_of_not_mem {w : Bytes} (h : c ∉ w) : split c w = [w] := by
  induction w with
  | nil => rfl
  | cons b bs ih =>
    rw [List.mem_cons, not_or] at h
    simp [split, Ne.symm h.1, ih h.2]

/-- A separator splits the text in two. -/
theorem split_append (c : UInt8) (a b : Bytes) : split c (a ++ c :: b) = split c a ++ split c b := by
  induction a with
  | nil => simp [split]
  | cons x xs ih =>
    simp only [List.cons_append, split, ih]
    by_cases hx : x = c
    · simp [hx]
    · simp only [if_neg hx]
      cases hsplit : split c xs with
      | nil => exact absurd hsplit (split_ne_nil c xs)
      | cons w ws => simp

end Statute.Base
