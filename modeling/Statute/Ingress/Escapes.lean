import Mathlib.Data.List.Forall2
import Statute.Base.Percent
import Statute.Ingress.Forwarded

/-!
# Escape normalisation at the ingress

`normalizeIngressEscapes` writes every octet of a path in one way: an unreserved byte plainly, every
other escape in upper case.  So it is the map of `canonicalOctet` over the octets of the text, and its
properties are those of that map: it keeps the values, it is idempotent, and two octets have the same
image exactly when they are alike.
-/

namespace Statute.Ingress

open Statute.Base

/-- How an octet is written after normalisation. -/
def canonicalOctet : Octet → Octet
  | .plain c => .plain c
  | .escaped a b =>
    if ingressUnreserved (Octet.escaped a b).value then .plain (Octet.escaped a b).value
    else .escaped (upperByte a) (upperByte b)

/-- Two octets that differ at most in the letter case of an escape, or in whether an unreserved byte
is escaped. -/
def Alike : Octet → Octet → Prop
  | .plain c, .plain d => c = d
  | .escaped a b, .escaped a' b' => upperByte a = upperByte a' ∧ upperByte b = upperByte b'
  | .plain c, .escaped a b => ingressUnreserved c = true ∧ (Octet.escaped a b).value = c
  | .escaped a b, .plain c => ingressUnreserved c = true ∧ (Octet.escaped a b).value = c

/-- Two texts whose octets are alike, one by one. -/
def SameButEscapes (s t : Bytes) : Prop :=
  ∃ ss ts, octets s = some ss ∧ octets t = some ts ∧ List.Forall₂ Alike ss ts

/-! ### Bytes -/

theorem ingressUnreserved_eq (c : UInt8) : ingressUnreserved c =
    (isLetter c || (48 ≤ c && c ≤ 57) || (lit "-._~").contains c) :=
  forall_byte (p := fun c => ingressUnreserved c =
    (isLetter c || (48 ≤ c && c ≤ 57) || (lit "-._~").contains c)) (by decide +kernel) c

theorem value_upper (a b : UInt8) :
    (Octet.escaped (upperByte a) (upperByte b)).value = (Octet.escaped a b).value := by
  rw [Octet.value, Octet.value, hexDigit_upperByte, hexDigit_upperByte]

variable {a b : UInt8}

theorem hexPair_of_hex {x y : ℕ} (ha : hexDigit a = some x) (hb : hexDigit b = some y) :
    hexPair a b = some (16 * x + y) := by
  simp [hexPair, digitsValue, ha, hb, Nat.mul_comm]

theorem hexPair_of_not_hex (h : ((hexDigit a).isSome && (hexDigit b).isSome) ≠ true) :
    hexPair a b = none := by
  cases ha : hexDigit a with
  | none => simp [hexPair, digitsValue, ha]
  | some x =>
    cases hb : hexDigit b with
    | none => simp [hexPair, digitsValue, ha, hb]
    | some y => exact absurd (by rw [ha, hb]; rfl) h

/-! ### Octets -/

theorem canonicalOctet_escaped (a b : UInt8) : canonicalOctet (.escaped a b) =
    if ingressUnreserved (Octet.escaped a b).value then .plain (Octet.escaped a b).value
    else .escaped (upperByte a) (upperByte b) := rfl

theorem canonicalOctet_wellFormed {t : Octet} (h : t.WellFormed) : (canonicalOctet t).WellFormed := by
  cases t with
  | plain c => exact h
  | escaped a b =>
    rw [canonicalOctet_escaped]
    split
    · rename_i hunreserved
      show (Octet.escaped a b).value ≠ ch '%'
      intro hpercent
      rw [hpercent] at hunreserved
      cases hunreserved
    · show (hexDigit (upperByte a)).isSome = true ∧ (hexDigit (upperByte b)).isSome = true
      rw [hexDigit_upperByte, hexDigit_upperByte]
      exact h

theorem canonicalOctet_value (t : Octet) : (canonicalOctet t).value = t.value := by
  cases t with
  | plain c => rfl
  | escaped a b =>
    rw [canonicalOctet_escaped]
    split
    · rfl
    · exact value_upper a b

theorem canonicalOctet_idem (t : Octet) : canonicalOctet (canonicalOctet t) = canonicalOctet t := by
  cases t with
  | plain c => rfl
  | escaped a b =>
    by_cases hunreserved : ingressUnreserved (Octet.escaped a b).value = true
    · rw [canonicalOctet, if_pos hunreserved]
      rfl
    · rw [canonicalOctet, if_neg hunreserved, canonicalOctet, value_upper, if_neg hunreserved,
        upperByte_idem, upperByte_idem]

/-- An escape that stays is in upper case and not of an unreserved byte. -/
theorem canonicalOctet_eq_escaped {t : Octet} (h : canonicalOctet t = .escaped a b) :
    upperByte a = a ∧ upperByte b = b ∧ ingressUnreserved (Octet.escaped a b).value = false := by
  cases t with
  | plain c => exact absurd h (by simp [canonicalOctet])
  | escaped a' b' =>
    rw [canonicalOctet_escaped] at h
    split at h
    · cases h
    · rename_i hreserved
      obtain ⟨rfl, rfl⟩ := Octet.escaped.inj h
      rw [upperByte_idem, upperByte_idem, value_upper, Bool.not_eq_true] at *
      exact ⟨rfl, rfl, hreserved⟩

/-- Two escapes of one byte differ in letter case only. -/
theorem upper_eq_of_value_eq {a' b' : UInt8} (h : (Octet.escaped a b).WellFormed)
    (h' : (Octet.escaped a' b').WellFormed)
    (hvalue : (Octet.escaped a b).value = (Octet.escaped a' b').value) :
    upperByte a = upperByte a' ∧ upperByte b = upperByte b' := by
  obtain ⟨x, hx⟩ := Option.isSome_iff_exists.mp h.1
  obtain ⟨y, hy⟩ := Option.isSome_iff_exists.mp h.2
  obtain ⟨x', hx'⟩ := Option.isSome_iff_exists.mp h'.1
  obtain ⟨y', hy'⟩ := Option.isSome_iff_exists.mp h'.2
  have hxlt := hexDigit_lt hx
  have hylt := hexDigit_lt hy
  have hxlt' := hexDigit_lt hx'
  have hylt' := hexDigit_lt hy'
  simp only [Octet.value, hx, hy, hx', hy', Option.getD_some] at hvalue
  have hnat := congrArg UInt8.toNat hvalue
  simp only [UInt8.toNat_ofNat'] at hnat
  rw [Nat.mod_eq_of_lt (by omega), Nat.mod_eq_of_lt (by omega)] at hnat
  have hxx : x = x' := by omega
  have hyy : y = y' := by omega
  rw [upperByte_of_hexDigit hx, upperByte_of_hexDigit hx', upperByte_of_hexDigit hy,
    upperByte_of_hexDigit hy', hxx, hyy]
  exact ⟨rfl, rfl⟩

theorem value_eq_of_upper_eq {a' b' : UInt8} (ha : upperByte a = upperByte a')
    (hb : upperByte b = upperByte b') :
    (Octet.escaped a b).value = (Octet.escaped a' b').value := by
  rw [← value_upper a b, ← value_upper a' b', ha, hb]

/-- **Octets with one canonical form** are the octets that are alike. -/
theorem canonicalOctet_eq_iff {t u : Octet} (ht : t.WellFormed) (hu : u.WellFormed) :
    canonicalOctet t = canonicalOctet u ↔ Alike t u := by
  cases t with
  | plain c =>
    cases u with
    | plain d => exact Octet.plain.injEq c d ▸ Iff.rfl
    | escaped a b =>
      show Octet.plain c = canonicalOctet (.escaped a b) ↔
        ingressUnreserved c = true ∧ (Octet.escaped a b).value = c
      rw [canonicalOctet_escaped]
      split
      · rename_i hunreserved
        rw [Octet.plain.injEq]
        exact ⟨fun h => ⟨h ▸ hunreserved, h.symm⟩, fun h => h.2.symm⟩
      · rename_i hreserved
        exact ⟨fun h => absurd h (by simp), fun h => absurd (h.2 ▸ h.1) hreserved⟩
  | escaped a b =>
    cases u with
    | plain c =>
      show canonicalOctet (.escaped a b) = Octet.plain c ↔
        ingressUnreserved c = true ∧ (Octet.escaped a b).value = c
      rw [canonicalOctet_escaped]
      split
      · rename_i hunreserved
        rw [Octet.plain.injEq]
        exact ⟨fun h => ⟨h ▸ hunreserved, h⟩, fun h => h.2⟩
      · rename_i hreserved
        exact ⟨fun h => absurd h (by simp), fun h => absurd (h.2 ▸ h.1) hreserved⟩
    | escaped a' b' =>
      have hiff : (Octet.escaped a b).value = (Octet.escaped a' b').value ↔
          upperByte a = upperByte a' ∧ upperByte b = upperByte b' :=
        ⟨upper_eq_of_value_eq ht hu, fun h => value_eq_of_upper_eq h.1 h.2⟩
      show canonicalOctet _ = canonicalOctet _ ↔ upperByte a = upperByte a' ∧ upperByte b = upperByte b'
      rw [← hiff]
      refine ⟨fun h => ?_, fun h => ?_⟩
      · rw [← canonicalOctet_value (.escaped a b), h, canonicalOctet_value]
      · obtain ⟨ha, hb⟩ := hiff.mp h
        rw [canonicalOctet, canonicalOctet, h, ha, hb]

/-! ### Texts -/

/-- **Normalising** maps every octet to its canonical form. -/
theorem normalizeIngressEscapes_eq (s : Bytes) :
    normalizeIngressEscapes s = (octets s).map fun ts => octetText (ts.map canonicalOctet) := by
  induction s using octets.induct with
  | case1 => rfl
  | case2 c rest hc ih =>
    rw [octets_plain hc, normalizeIngressEscapes.eq_def]
    simp only [hc, ne_eq, not_false_eq_true, if_true, ih, Option.map_map]
    rfl
  | case3 c hc a b rest hhex ih =>
    rw [not_not] at hc
    rw [Bool.and_eq_true] at hhex
    obtain ⟨x, hx⟩ := Option.isSome_iff_exists.mp hhex.1
    obtain ⟨y, hy⟩ := Option.isSome_iff_exists.mp hhex.2
    have hvalue : (Octet.escaped a b).value = UInt8.ofNat (16 * x + y) := by
      simp only [Octet.value, hx, hy, Option.getD_some]
    rw [hc, octets_escaped hhex.1 hhex.2, normalizeIngressEscapes.eq_def]
    simp only [ne_eq, not_true_eq_false, if_false, hexPair_of_hex hx hy, ih, Option.map_map]
    congr 1
    funext ts
    simp only [Function.comp, List.map_cons, octetText_cons, canonicalOctet, hvalue]
    split <;> rfl
  | case4 c hc a b rest hhex =>
    rw [not_not] at hc
    have hbad : ∀ a' b' rest', a :: b :: rest = a' :: b' :: rest' →
        ((hexDigit a').isSome && (hexDigit b').isSome) ≠ true := fun a' b' rest' heq => by simp_all
    rw [hc, octets_bad hbad, normalizeIngressEscapes.eq_def]
    simp only [ne_eq, not_true_eq_false, if_false, hexPair_of_not_hex hhex, Option.map_none]
  | case5 c rest hc hshort =>
    rw [not_not] at hc
    have hbad : ∀ a b rest', rest = a :: b :: rest' →
        ((hexDigit a).isSome && (hexDigit b).isSome) ≠ true :=
      fun a b rest' heq => absurd heq (hshort a b rest')
    rw [hc, octets_bad hbad, normalizeIngressEscapes.eq_def]
    simp only [ne_eq, not_true_eq_false, if_false, Option.map_none]

theorem map_canonicalOctet_wellFormed {ts : List Octet} (h : ∀ t ∈ ts, t.WellFormed) :
    ∀ t ∈ ts.map canonicalOctet, t.WellFormed := by
  intro t ht
  obtain ⟨u, hu, rfl⟩ := List.mem_map.mp ht
  exact canonicalOctet_wellFormed (h u hu)

/-- The octets of a normalised text are the canonical forms of those it was made from. -/
theorem octets_normalized {raw out : Bytes} (h : normalizeIngressEscapes raw = some out) :
    ∃ ts, octets raw = some ts ∧ octets out = some (ts.map canonicalOctet) := by
  rw [normalizeIngressEscapes_eq, Option.map_eq_some_iff] at h
  obtain ⟨ts, hts, rfl⟩ := h
  obtain ⟨-, hwf⟩ := octets_iff.mp hts
  exact ⟨ts, hts, octets_octetText (map_canonicalOctet_wellFormed hwf)⟩

theorem map_canonicalOctet_eq_iff {ss ts : List Octet} (hs : ∀ t ∈ ss, t.WellFormed)
    (ht : ∀ t ∈ ts, t.WellFormed) :
    ss.map canonicalOctet = ts.map canonicalOctet ↔ List.Forall₂ Alike ss ts := by
  induction ss generalizing ts with
  | nil => cases ts <;> simp
  | cons s ss ih =>
    cases ts with
    | nil => simp
    | cons t ts =>
      rw [List.map_cons, List.map_cons, List.cons.injEq, List.forall₂_cons,
        canonicalOctet_eq_iff (hs s List.mem_cons_self) (ht t List.mem_cons_self),
        ih (fun u hu => hs u (List.mem_cons_of_mem s hu)) fun u hu => ht u (List.mem_cons_of_mem t hu)]

/-- **Escape normalisation.**  It fails exactly on texts that are not validly percent-encoded.  Its
result decodes as the text does, holds only upper-case escapes of bytes that are not unreserved, and
is left as it is by a second normalisation.  Two texts have one result exactly when they differ only
in the letter case of escapes and in whether unreserved bytes are escaped. -/
theorem normalize_escapes :
    (∀ c, ingressUnreserved c = (isLetter c || (48 ≤ c && c ≤ 57) || (lit "-._~").contains c)) ∧
    (∀ raw, normalizeIngressEscapes raw = none ↔ unescape raw = none) ∧
    (∀ raw out, normalizeIngressEscapes raw = some out →
      unescape out = unescape raw ∧
      (∃ ts, octets out = some ts ∧ ∀ a b, Octet.escaped a b ∈ ts →
        upperByte a = a ∧ upperByte b = b ∧ ingressUnreserved (Octet.escaped a b).value = false) ∧
      normalizeIngressEscapes out = some out) ∧
    ∀ s t x y, normalizeIngressEscapes s = some x → normalizeIngressEscapes t = some y →
      (x = y ↔ SameButEscapes s t) := by
  refine ⟨ingressUnreserved_eq, fun raw => ?_, fun raw out h => ?_, fun s t x y hx hy => ?_⟩
  · rw [normalizeIngressEscapes_eq, unescape_eq, Option.map_eq_none_iff, Option.map_eq_none_iff]
  · obtain ⟨ts, hraw, hout⟩ := octets_normalized h
    refine ⟨?_, ⟨_, hout, fun a b hmem => ?_⟩, ?_⟩
    · rw [unescape_eq, unescape_eq, hraw, hout, Option.map_some, Option.map_some, octetValues,
        List.map_map]
      exact congrArg some (List.map_congr_left fun t _ => canonicalOctet_value t)
    · obtain ⟨t, -, ht⟩ := List.mem_map.mp hmem
      exact canonicalOctet_eq_escaped ht
    · have hidem : (ts.map canonicalOctet).map canonicalOctet = ts.map canonicalOctet := by
        rw [List.map_map]
        exact List.map_congr_left fun t _ => canonicalOctet_idem t
      rw [normalizeIngressEscapes_eq, hout, Option.map_some, hidem]
      exact congrArg some (octets_iff.mp hout).1.symm
  · obtain ⟨ss, hs, hsx⟩ := octets_normalized hx
    obtain ⟨ts, ht, hty⟩ := octets_normalized hy
    have hmap : x = y ↔ ss.map canonicalOctet = ts.map canonicalOctet := by
      refine ⟨fun h => ?_, fun h => ?_⟩
      · rw [h, hty, Option.some.injEq] at hsx
        exact hsx.symm
      · rw [(octets_iff.mp hsx).1, (octets_iff.mp hty).1, h]
    rw [hmap, map_canonicalOctet_eq_iff (octets_iff.mp hs).2 (octets_iff.mp ht).2]
    refine ⟨fun h => ⟨ss, ts, hs, ht, h⟩, fun h => ?_⟩
    obtain ⟨ss', ts', hs', ht', halike⟩ := h
    rw [hs, Option.some.injEq] at hs'
    rw [ht, Option.some.injEq] at ht'
    rwa [hs', ht']

/-- A hyphen and a slash, escaped in lower case, next to a percent sign that is escaped itself. -/
theorem normalize_escapes_mixed :
    normalizeIngressEscapes (lit "/a%2db%2f%25") = some (lit "/a-b%2F%25") ∧
      unescape (lit "/a-b%2F%25") = unescape (lit "/a%2db%2f%25") :=
  have h : normalizeIngressEscapes (lit "/a%2db%2f%25") = some (lit "/a-b%2F%25") := by decide +kernel
  ⟨h, (normalize_escapes.2.2.1 _ _ h).1⟩

end Statute.Ingress
