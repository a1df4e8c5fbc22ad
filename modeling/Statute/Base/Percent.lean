import Statute.Base.Header
import Statute.Base.UrlPath

/-!
# Percent-encoded text as octets

A percent-encoded text is a sequence of octets, each written plainly or as an escape.  `octets` reads
the sequence and fails on a bad escape; `octets_iff` says that it inverts writing the octets one after
the other.  Decoding, escaping and walking along a text are then facts about lists: decoding maps each
octet to its value, a text is cut between two octets by cutting the list.
-/

namespace Statute.Base

/-- One octet of a percent-encoded text. -/
inductive Octet where
  | plain (c : UInt8)
  | escaped (a b : UInt8)
deriving DecidableEq

namespace Octet

/-- How the octet is written. -/
def bytes : Octet → Bytes
  | plain c => [c]
  | escaped a b => [ch '%', a, b]

/-- The byte the octet stands for. -/
def value : Octet → UInt8
  | plain c => c
  | escaped a b => UInt8.ofNat (16 * (hexDigit a).getD 0 + (hexDigit b).getD 0)

/-- A plain octet is not the escape character, and an escape has two digits. -/
def WellFormed : Octet → Prop
  | plain c => c ≠ ch '%'
  | escaped a b => (hexDigit a).isSome = true ∧ (hexDigit b).isSome = true

instance instDecidableWellFormed : DecidablePred WellFormed
  | plain c => inferInstanceAs (Decidable (c ≠ ch '%'))
  | escaped a b => inferInstanceAs (Decidable ((hexDigit a).isSome = true ∧ (hexDigit b).isSome = true))

def isEscaped : Octet → Bool
  | plain _ => false
  | escaped _ _ => true

end Octet

/-- The octets of a text, `none` for a bad escape. -/
def octets : Bytes → Option (List Octet)
  | [] => some []
  | c :: rest =>
    if c ≠ ch '%' then (octets rest).map (.plain c :: ·)
    else match rest with
      | a :: b :: rest' =>
        if (hexDigit a).isSome && (hexDigit b).isSome then (octets rest').map (.escaped a b :: ·)
        else none
      | _ => none

def octetText (ts : List Octet) : Bytes := ts.flatMap Octet.bytes

/-- The bytes a sequence of octets stands for. -/
def octetValues (ts : List Octet) : Bytes := ts.map Octet.value

@[simp] theorem octetText_nil : octetText [] = [] := rfl

theorem octetText_cons (t : Octet) (ts : List Octet) :
    octetText (t :: ts) = t.bytes ++ octetText ts := List.flatMap_cons

theorem octetText_append (ts us : List Octet) : octetText (ts ++ us) = octetText ts ++ octetText us :=
  List.flatMap_append

variable {ts : List Octet}

theorem octetText_ne_nil (h : ts ≠ []) : octetText ts ≠ [] := by
  cases ts with
  | nil => exact absurd rfl h
  | cons t ts =>
    rw [octetText_cons]
    cases t <;> simp [Octet.bytes]

theorem octets_plain {c : UInt8} (h : c ≠ ch '%') (rest : Bytes) :
    octets (c :: rest) = (octets rest).map (.plain c :: ·) := by
  rw [octets.eq_def]
  exact if_pos h

theorem octets_escaped {a b : UInt8} (ha : (hexDigit a).isSome = true) (hb : (hexDigit b).isSome = true)
    (rest : Bytes) : octets (ch '%' :: a :: b :: rest) = (octets rest).map (.escaped a b :: ·) := by
  rw [octets.eq_def]
  simp only [ne_eq, not_true_eq_false, if_false, ha, hb, Bool.and_self, if_true]

/-- An escape without two digits is bad. -/
theorem octets_bad {rest : Bytes} (h : ∀ a b rest', rest = a :: b :: rest' →
    ((hexDigit a).isSome && (hexDigit b).isSome) ≠ true) : octets (ch '%' :: rest) = none := by
  rw [octets.eq_def]
  simp only [ne_eq, not_true_eq_false, if_false]
  split
  · rename_i a b rest'
    rw [if_neg (h a b rest' rfl)]
  · rfl

/-- Reading what was written, one octet. -/
theorem octets_bytes_append {t : Octet} (h : t.WellFormed) (rest : Bytes) :
    octets (t.bytes ++ rest) = (octets rest).map (t :: ·) := by
  cases t with
  | plain c => exact octets_plain h rest
  | escaped a b => exact octets_escaped h.1 h.2 rest

theorem octets_octetText_append (h : ∀ t ∈ ts, t.WellFormed) (rest : Bytes) :
    octets (octetText ts ++ rest) = (octets rest).map (ts ++ ·) := by
  induction ts with
  | nil => simp
  | cons t ts ih =>
    rw [octetText_cons, List.append_assoc, octets_bytes_append (h t List.mem_cons_self),
      ih fun u hu => h u (List.mem_cons_of_mem t hu), Option.map_map]
    rfl

theorem octets_octetText (h : ∀ t ∈ ts, t.WellFormed) : octets (octetText ts) = some ts := by
  have happend := octets_octetText_append h []
  rwa [List.append_nil, octets, Option.map_some, List.append_nil] at happend

/-- **Reading octets** is the inverse of writing them. -/
theorem octets_iff {s : Bytes} :
    octets s = some ts ↔ s = octetText ts ∧ ∀ t ∈ ts, t.WellFormed := by
  refine ⟨fun h => ?_, fun h => h.1 ▸ octets_octetText h.2⟩
  induction s using octets.induct generalizing ts with
  | case1 =>
    rw [octets, Option.some.injEq] at h
    rw [← h]
    exact ⟨rfl, fun t ht => absurd ht List.not_mem_nil⟩
  | case2 c rest hc ih =>
    rw [octets_plain hc, Option.map_eq_some_iff] at h
    obtain ⟨us, hus, rfl⟩ := h
    obtain ⟨htext, hwf⟩ := ih hus
    rw [octetText_cons, ← htext]
    refine ⟨rfl, fun t ht => ?_⟩
    rcases List.mem_cons.mp ht with rfl | ht
    · exact hc
    · exact hwf t ht
  | case3 c hc a b rest hhex ih =>
    rw [Bool.and_eq_true] at hhex
    rw [not_not] at hc
    rw [hc, octets_escaped hhex.1 hhex.2, Option.map_eq_some_iff] at h
    obtain ⟨us, hus, rfl⟩ := h
    obtain ⟨htext, hwf⟩ := ih hus
    rw [octetText_cons, ← htext, hc]
    refine ⟨rfl, fun t ht => ?_⟩
    rcases List.mem_cons.mp ht with rfl | ht
    · exact hhex
    · exact hwf t ht
  | case4 c hc a b rest hhex =>
    rw [not_not] at hc
    rw [hc, octets_bad fun a' b' rest' heq => by simp_all] at h
    cases h
  | case5 c rest hc hshort =>
    rw [not_not] at hc
    rw [hc, octets_bad fun a' b' rest' heq => absurd heq (hshort a' b' rest')] at h
    cases h

/-! ### Decoding -/

theorem unescape_plain {c : UInt8} (h : c ≠ ch '%') (rest : Bytes) :
    unescape (c :: rest) = (unescape rest).map (c :: ·) := by
  rw [unescape.eq_def]
  exact if_pos h

theorem unescape_escaped {a b : UInt8} {x y : ℕ} (ha : hexDigit a = some x) (hb : hexDigit b = some y)
    (rest : Bytes) : unescape (ch '%' :: a :: b :: rest) =
      (unescape rest).map (UInt8.ofNat (16 * x + y) :: ·) := by
  rw [unescape.eq_def]
  simp only [ne_eq, not_true_eq_false, if_false, ha, hb]

theorem unescape_bad {rest : Bytes} (h : ∀ a b rest', rest = a :: b :: rest' →
    ((hexDigit a).isSome && (hexDigit b).isSome) ≠ true) : unescape (ch '%' :: rest) = none := by
  rw [unescape.eq_def]
  simp only [ne_eq, not_true_eq_false, if_false]
  split
  · rename_i a b rest'
    split
    · rename_i x y ha hb
      exact absurd (by rw [ha, hb]; rfl) (h a b rest' rfl)
    · rfl
  · rfl

variable (s : Bytes)

/-- **Decoding** maps every octet to its value. -/
theorem unescape_eq : unescape s = (octets s).map octetValues := by
  induction s using octets.induct with
  | case1 => rfl
  | case2 c rest hc ih =>
    rw [octets_plain hc, unescape_plain hc, ih, Option.map_map, Option.map_map]
    rfl
  | case3 c hc a b rest hhex ih =>
    rw [Bool.and_eq_true] at hhex
    rw [not_not] at hc
    obtain ⟨x, hx⟩ := Option.isSome_iff_exists.mp hhex.1
    obtain ⟨y, hy⟩ := Option.isSome_iff_exists.mp hhex.2
    rw [hc, octets_escaped hhex.1 hhex.2, unescape_escaped hx hy, ih, Option.map_map, Option.map_map]
    congr 1
    funext us
    simp only [Function.comp, octetValues, List.map_cons, Octet.value, hx, hy, Option.getD_some]
  | case4 c hc a b rest hhex =>
    rw [not_not] at hc
    have hbad : ∀ a' b' rest', a :: b :: rest = a' :: b' :: rest' →
        ((hexDigit a').isSome && (hexDigit b').isSome) ≠ true := fun a' b' rest' heq => by simp_all
    rw [hc, octets_bad hbad, unescape_bad hbad, Option.map_none]
  | case5 c rest hc hshort =>
    rw [not_not] at hc
    have hbad : ∀ a b rest', rest = a :: b :: rest' →
        ((hexDigit a).isSome && (hexDigit b).isSome) ≠ true :=
      fun a b rest' heq => absurd heq (hshort a b rest')
    rw [hc, octets_bad hbad, unescape_bad hbad, Option.map_none]

theorem unescape_octetText (h : ∀ t ∈ ts, t.WellFormed) :
    unescape (octetText ts) = some (octetValues ts) := by
  rw [unescape_eq, octets_octetText h, Option.map_some]

/-- A text that decodes is the text of the octets it decodes by. -/
theorem exists_octets {s p : Bytes} (h : unescape s = some p) :
    ∃ ts, s = octetText ts ∧ (∀ t ∈ ts, t.WellFormed) ∧ octetValues ts = p := by
  rw [unescape_eq, Option.map_eq_some_iff] at h
  obtain ⟨ts, hts, hvalues⟩ := h
  obtain ⟨htext, hwf⟩ := octets_iff.mp hts
  exact ⟨ts, htext, hwf, hvalues⟩

theorem unescape_append {s t p q : Bytes} (hs : unescape s = some p) (ht : unescape t = some q) :
    unescape (s ++ t) = some (p ++ q) := by
  obtain ⟨ss, rfl, hss, rfl⟩ := exists_octets hs
  obtain ⟨ts, rfl, hts, rfl⟩ := exists_octets ht
  rw [← octetText_append, unescape_octetText]
  · rw [octetValues, List.map_append, octetValues, octetValues]
  · intro u hu
    rcases List.mem_append.mp hu with hu | hu
    · exact hss u hu
    · exact hts u hu

/-! ### Hexadecimal digits -/

variable (c : UInt8)

/-- A digit is below sixteen, its upper-case form is written by its number, and its case does not
matter. -/
theorem hexDigit_spec : hexDigit (upperByte c) = hexDigit c ∧
    ∀ x ∈ hexDigit c, x < 16 ∧ upperByte c = hexChar true x :=
  forall_byte (p := fun c => hexDigit (upperByte c) = hexDigit c ∧
    ∀ x ∈ hexDigit c, x < 16 ∧ upperByte c = hexChar true x) (by decide +kernel) c

theorem hexDigit_upperByte : hexDigit (upperByte c) = hexDigit c := (hexDigit_spec c).1

theorem hexDigit_lt {c : UInt8} {x : ℕ} (h : hexDigit c = some x) : x < 16 := ((hexDigit_spec c).2 x h).1

theorem upperByte_of_hexDigit {c : UInt8} {x : ℕ} (h : hexDigit c = some x) :
    upperByte c = hexChar true x := ((hexDigit_spec c).2 x h).2

/-! ### Escaping -/

/-- How `escape` writes a byte of a path. -/
def pathOctet (c : UInt8) : Octet :=
  if shouldEscapePath c then
    .escaped (hexChar true (c.toNat / 16)) (hexChar true (c.toNat % 16)) else .plain c

theorem pathOctet_spec : (pathOctet c).WellFormed ∧ (pathOctet c).value = c :=
  forall_byte (p := fun c => (pathOctet c).WellFormed ∧ (pathOctet c).value = c) (by decide +kernel) c

theorem pathOctet_wellFormed : (pathOctet c).WellFormed := (pathOctet_spec c).1

theorem pathOctet_value : (pathOctet c).value = c := (pathOctet_spec c).2

theorem escapePath_eq : escapePath s = octetText (s.map pathOctet) := by
  induction s with
  | nil => rfl
  | cons c s ih =>
    rw [List.map_cons, octetText_cons, ← ih]
    show (if shouldEscapePath c then percent true c else [c]) ++ escapePath s = _
    unfold pathOctet
    split <;> rfl

/-! ### Texts without escapes -/

theorem length_octetText (ts : List Octet) :
    (octetText ts).length = ts.length + 2 * ts.countP Octet.isEscaped := by
  induction ts with
  | nil => rfl
  | cons t ts ih =>
    rw [octetText_cons, List.length_append, ih, List.countP_cons, List.length_cons]
    cases t with
    | plain c =>
      rw [if_neg (by simp [Octet.isEscaped])]
      simp only [Octet.bytes, List.length_singleton]
      omega
    | escaped a b =>
      rw [if_pos (show (Octet.escaped a b).isEscaped = true from rfl)]
      simp only [Octet.bytes, List.length_cons, List.length_nil]
      omega

/-- A text is its decoded form exactly when it has no escape. -/
theorem octetText_eq_octetValues_iff (ts : List Octet) :
    octetText ts = octetValues ts ↔ ∀ t ∈ ts, t.isEscaped = false := by
  constructor
  · intro h
    have hlen := congrArg List.length h
    rw [length_octetText, octetValues, List.length_map] at hlen
    have hcount : ts.countP Octet.isEscaped = 0 := by omega
    intro t ht
    rw [← Bool.not_eq_true]
    exact List.countP_eq_zero.mp hcount t ht
  · intro h
    induction ts with
    | nil => rfl
    | cons t ts ih =>
      rw [octetText_cons, ih fun u hu => h u (List.mem_cons_of_mem t hu)]
      cases t with
      | plain c => rfl
      | escaped a b => exact absurd (h _ List.mem_cons_self) (by simp [Octet.isEscaped])

theorem pathOctet_isEscaped : (pathOctet c).isEscaped = shouldEscapePath c := by
  unfold pathOctet
  split <;> rename_i h
  · rw [h]
    rfl
  · rw [Bool.not_eq_true] at h
    rw [h]
    rfl

theorem map_pathOctet_wellFormed : ∀ t ∈ s.map pathOctet, t.WellFormed := by
  intro t ht
  obtain ⟨c, -, rfl⟩ := List.mem_map.mp ht
  exact pathOctet_wellFormed c

theorem octetValues_map_pathOctet : octetValues (s.map pathOctet) = s := by
  rw [octetValues, List.map_map]
  exact (List.map_congr_left fun c _ => pathOctet_value c).trans (List.map_id s)

/-- **Escaping** is undone by decoding. -/
theorem unescape_escapePath : unescape (escapePath s) = some s := by
  rw [escapePath_eq, unescape_octetText (map_pathOctet_wellFormed s), octetValues_map_pathOctet]

/-- Escaping leaves a text alone exactly when none of its bytes needs it. -/
theorem escapePath_eq_self_iff : escapePath s = s ↔ ∀ c ∈ s, shouldEscapePath c = false := by
  have h := octetText_eq_octetValues_iff (s.map pathOctet)
  rw [octetValues_map_pathOctet, ← escapePath_eq] at h
  rw [h, List.forall_mem_map]
  simp only [pathOctet_isEscaped]

end Statute.Base
