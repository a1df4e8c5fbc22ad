import Mathlib.Data.List.Perm.Basic
import Statute.Cache.Directives

/-!
# Content negotiation

`compress_negotiation.go` and `selectResponseEncoding`: a request weighs the codings in its
`Accept-Encoding` field, and a response is left as it is, encoded, or refused.

* `parseAcceptEncoding`, `weight`: the weights of a header;
* `selectCoding`, `selectResponseEncoding`: the choice;
* `negotiation`: the weights do not depend on the order of the members, and no choice has weight zero.
-/

namespace Statute.Encoding

open Statute.Base
open Statute.Cache (trimOf cacheHeaderValues cacheControlAllows)

/-! ### Weights -/

structure EncodingPreferences where
  present : Bool
  quality : Bytes → Option ℕ

def normalizeCoding (name : Bytes) : Bytes :=
  if lowerText name = lit "x-gzip" then lit "gzip" else lowerText name

/-- The loop of `fractionQuality`. -/
def fractionDigits (one : Bool) : ℕ → ℕ → Bytes → Option ℕ
  | q, _, [] => some q
  | q, scale, digit :: rest =>
    if digit < 48 || 57 < digit || (one && digit != 48) then none
    else fractionDigits one (q + (digit.toNat - 48) * scale) (scale / 10) rest

def fractionQuality (whole fraction : Bytes) : Option ℕ :=
  if fraction.length > 3 then none
  else (fractionDigits (whole == lit "1") 0 100 fraction).map fun q => if whole = lit "1" then 1000 else q

def encodingQuality (value : Bytes) : Option ℕ :=
  if value = lit "." then none
  else
    let value := if hasPrefix value (lit ".") then lit "0" ++ value else value
    match cut value (ch '.') with
    | (whole, fraction, _) =>
      if whole ≠ lit "0" ∧ whole ≠ lit "1" then none else fractionQuality whole fraction

def parseEncodingMember (member : Bytes) : Option (Bytes × ℕ) :=
  match cut member (ch ';') with
  | (name, parameter, weighted) =>
    let name := normalizeCoding (trimOf (lit " \t") name)
    if validHeaderFieldName name = false then none
    else if weighted = false then some (name, 1000)
    else
      match cut parameter (ch '=') with
      | (key, value, ok) =>
        if ok = false ∨ equalFold (trimOf (lit " \t") key) (lit "q") = false then none
        else (encodingQuality (trimOf (lit " \t") value)).map fun q => (name, q)

/-- Note a weight; of two for one name the smaller stays. -/
def record (quality : Bytes → Option ℕ) (member : Bytes × ℕ) : Bytes → Option ℕ :=
  Function.update quality member.1
    (some (match quality member.1 with
      | some previous => min member.2 previous
      | none => member.2))

/-- The loop of `parseAcceptEncoding` over the members. -/
def parseMembers : (Bytes → Option ℕ) → List Bytes → (Bytes → Option ℕ) × Bool
  | quality, [] => (quality, true)
  | quality, member :: rest =>
    match parseEncodingMember member with
    | none => (quality, false)
    | some parsed => parseMembers (record quality parsed) rest

/-- The members of the lines of a field that are not empty. -/
def fieldMembers (values : List Bytes) : List Bytes :=
  (values.flatMap fun value => (split (ch ',') value).map (trimOf (lit " \t"))).filter (· ≠ [])

/-- `parseAcceptEncoding`: the preferences and whether the field is valid. -/
def parseAcceptEncoding (h : Header) : EncodingPreferences × Bool :=
  match cacheHeaderValues h (lit "Accept-Encoding") with
  | (values, present) =>
    match parseMembers (fun _ => none) (fieldMembers values) with
    | (quality, ok) => (⟨present, quality⟩, ok)

def EncodingPreferences.weight (p : EncodingPreferences) (name : Bytes) : ℕ :=
  let name := normalizeCoding name
  if p.present = false then 1000
  else
    match p.quality name with
    | some q => q
    | none =>
      let wildcard := p.quality (lit "*")
      if name = lit "identity" ∧ (wildcard = none ∨ wildcard.getD 0 ≠ 0) then 1000 else wildcard.getD 0

/-! ### Choices -/

/-- `compressionNegotiator`. -/
structure Negotiator where
  prefs : EncodingPreferences
  gzip : Bool
  brotli : Bool
  transform : Bool

/-- The existing coding of a response. -/
def currentCoding (h : Header) : Bytes :=
  trimOf (lit " \t") ((lit ",").intercalate (cacheHeaderValues h (lit "Content-Encoding")).1)

def EncodingPreferences.acceptsStack (p : EncodingPreferences) (current : Bytes) : Bool :=
  (split (ch ',') current).all fun coding =>
    let coding := normalizeCoding (trimOf (lit " \t") coding)
    !(coding == lit "*" || !validHeaderFieldName coding || p.weight coding == 0)

def Negotiator.preferredCoding (n : Negotiator) : Bytes × Bool :=
  let first := if n.brotli then (lit "br", n.prefs.weight (lit "br")) else ([], 0)
  let best :=
    if n.gzip ∧ n.prefs.weight (lit "gzip") > first.2 then (lit "gzip", n.prefs.weight (lit "gzip"))
    else first
  if (n.prefs.quality (lit "identity")).any (· > best.2) then ([], true)
  else if best.2 > 0 then (best.1, true)
  else ([], decide (n.prefs.weight (lit "identity") > 0))

/-- A new coding may be applied to the response. -/
def Negotiator.fresh (n : Negotiator) (h : Header) (status : ℕ) : Bool :=
  n.prefs.present && status != 206 && !(cacheHeaderValues h (lit "Content-Range")).2 && n.transform &&
    cacheControlAllows h [lit "no-transform"]

/-- `selectCoding`: a new coding, empty to preserve the representation, and whether it is acceptable. -/
def Negotiator.selectCoding (n : Negotiator) (h : Header) (status : ℕ) : Bytes × Bool :=
  let current := currentCoding h
  if current ≠ [] ∧ equalFold current (lit "identity") = false then ([], n.prefs.acceptsStack current)
  else if n.fresh h status = false then ([], decide (n.prefs.weight (lit "identity") > 0))
  else n.preferredCoding

structure EncodingPolicy where
  encodings : List Bytes
  defaultEncoding : Bytes := []
  minimumBytes : ℕ
  includedTypes : List Bytes := []
  excludedTypes : List Bytes := []

/-- The loop of `selectResponseEncoding`. -/
def bestEncoding (p : EncodingPreferences) : Bytes × ℕ → List Bytes → Bytes × ℕ
  | best, [] => best
  | best, name :: rest => bestEncoding p (if p.weight name > best.2 then (name, p.weight name) else best) rest

def selectResponseEncoding (h : Header) (p : EncodingPolicy) : Bytes :=
  match parseAcceptEncoding h with
  | (_, false) => []
  | (prefs, true) =>
    if prefs.present = false then p.defaultEncoding
    else
      let preference :=
        if p.defaultEncoding ≠ [] ∧ prefs.quality p.defaultEncoding = none then
          p.defaultEncoding :: p.encodings
        else p.encodings
      let best := bestEncoding prefs ([], 0) preference
      if (prefs.quality (lit "identity")).getD 0 > best.2 then [] else best.1

/-! ### Order does not matter -/

/-- Noting two members commutes. -/
theorem record_comm (quality : Bytes → Option ℕ) (a b : Bytes × ℕ) :
    record (record quality a) b = record (record quality b) a := by
  by_cases hname : a.1 = b.1
  · unfold record
    rw [hname]
    simp only [Function.update_self, Function.update_idem]
    congr 2
    cases quality b.1 with
    | none => exact min_comm b.2 a.2
    | some previous => exact min_left_comm b.2 a.2 previous
  · unfold record
    rw [Function.update_of_ne (Ne.symm hname), Function.update_of_ne hname, Function.update_comm hname]

/-- The field is valid exactly when every member is. -/
theorem parseMembers_snd (quality : Bytes → Option ℕ) (members : List Bytes) :
    (parseMembers quality members).2 = members.all fun member => (parseEncodingMember member).isSome := by
  induction members generalizing quality with
  | nil => rfl
  | cons member members ih =>
    rw [parseMembers, List.all_cons]
    cases parseEncodingMember member with
    | none => rfl
    | some parsed => exact ih (record quality parsed)

/-- A valid field notes its members one after the other. -/
theorem parseMembers_fst {members : List Bytes}
    (h : ∀ member ∈ members, (parseEncodingMember member).isSome = true) (quality : Bytes → Option ℕ) :
    (parseMembers quality members).1 = (members.filterMap parseEncodingMember).foldl record quality := by
  induction members generalizing quality with
  | nil => rfl
  | cons member members ih =>
    obtain ⟨parsed, hparsed⟩ := Option.isSome_iff_exists.mp (h member List.mem_cons_self)
    rw [parseMembers, hparsed, List.filterMap_cons_some hparsed, List.foldl_cons]
    exact ih (fun m hm => h m (List.mem_cons_of_mem member hm)) (record quality parsed)

/-- The members of the `Accept-Encoding` field. -/
def acceptMembers (h : Header) : List Bytes :=
  fieldMembers (cacheHeaderValues h (lit "Accept-Encoding")).1

theorem parseAcceptEncoding_eq (h : Header) : parseAcceptEncoding h =
    (⟨(cacheHeaderValues h (lit "Accept-Encoding")).2, (parseMembers (fun _ => none) (acceptMembers h)).1⟩,
      (parseMembers (fun _ => none) (acceptMembers h)).2) := rfl

variable {h : Header}

/-- **Reordering.**  Fields with the same members, in any order and in any lines, are valid together and
then give the same preferences. -/
theorem parseAcceptEncoding_perm {h' : Header}
    (hmembers : (acceptMembers h).Perm (acceptMembers h'))
    (hpresent : (cacheHeaderValues h (lit "Accept-Encoding")).2 =
      (cacheHeaderValues h' (lit "Accept-Encoding")).2) :
    (parseAcceptEncoding h).2 = (parseAcceptEncoding h').2 ∧
      ((parseAcceptEncoding h).2 = true → (parseAcceptEncoding h).1 = (parseAcceptEncoding h').1) := by
  rw [parseAcceptEncoding_eq, parseAcceptEncoding_eq]
  simp only [parseMembers_snd]
  have hall : ((acceptMembers h).all fun member => (parseEncodingMember member).isSome) =
      (acceptMembers h').all fun member => (parseEncodingMember member).isSome := hmembers.all_eq
  refine ⟨hall, fun hvalid => ?_⟩
  rw [parseMembers_fst (List.all_eq_true.mp hvalid), parseMembers_fst (List.all_eq_true.mp (hall ▸ hvalid)),
    hpresent, (hmembers.filterMap parseEncodingMember).foldl_eq' fun a _ b _ q => record_comm q a b]

/-! ### No choice has weight zero -/

/-- The coding is one the server can apply. -/
def Negotiator.Enabled (n : Negotiator) (coding : Bytes) : Prop :=
  (coding = lit "br" ∧ n.brotli = true) ∨ (coding = lit "gzip" ∧ n.gzip = true)

theorem normalizeCoding_idem {name : Bytes} (hvalid : validHeaderFieldName (normalizeCoding name) = true) :
    normalizeCoding (normalizeCoding name) = normalizeCoding name := by
  by_cases h : lowerText name = lit "x-gzip"
  · rw [normalizeCoding, normalizeCoding, if_pos h]
    decide
  · have hlower : lowerText (lowerText name) = lowerText name := by
      rw [normalizeCoding, if_neg h] at hvalid
      exact (foldText_ascii (by decide) (isASCII_of_validHeaderFieldName hvalid)).trans
        (toLower_foldText (by decide) name)
    rw [normalizeCoding, normalizeCoding, if_neg h, hlower, if_neg h]

theorem weight_normalizeCoding (p : EncodingPreferences) {name : Bytes}
    (hvalid : validHeaderFieldName (normalizeCoding name) = true) :
    p.weight (normalizeCoding name) = p.weight name := by
  unfold EncodingPreferences.weight
  rw [normalizeCoding_idem hvalid]

/-- A listed coding has the weight it is listed with. -/
theorem weight_of_listed {p : EncodingPreferences} {name : Bytes} {q : ℕ} (hpresent : p.present = true)
    (hname : normalizeCoding name = name) (h : p.quality name = some q) : p.weight name = q := by
  unfold EncodingPreferences.weight
  simp only [hname, h, hpresent, Bool.true_eq_false, if_false]

/-- The best enabled coding, without one an empty coding of weight zero. -/
structure Best (n : Negotiator) (best : Bytes × ℕ) : Prop where
  max : ∀ coding, n.Enabled coding → n.prefs.weight coding ≤ best.2
  enabled : best.2 ≠ 0 → n.Enabled best.1 ∧ n.prefs.weight best.1 = best.2

/-- `preferredCoding` decides by the best enabled coding. -/
theorem exists_best (n : Negotiator) : ∃ best, Best n best ∧ n.preferredCoding =
    if (n.prefs.quality (lit "identity")).any (· > best.2) then ([], true)
    else if best.2 > 0 then (best.1, true)
    else ([], decide (n.prefs.weight (lit "identity") > 0)) := by
  obtain ⟨first, hfirst⟩ : ∃ first, first =
      if n.brotli then (lit "br", n.prefs.weight (lit "br")) else ([], 0) := ⟨_, rfl⟩
  obtain ⟨best, hbest⟩ : ∃ best, best = if n.gzip ∧ n.prefs.weight (lit "gzip") > first.2 then
      (lit "gzip", n.prefs.weight (lit "gzip")) else first := ⟨_, rfl⟩
  refine ⟨best, ⟨?_, ?_⟩, by rw [hbest, hfirst]; rfl⟩
  · have hle : first.2 ≤ best.2 := by
      rw [hbest]
      split
      · rename_i h
        exact h.2.le
      · exact le_rfl
    rintro coding (⟨rfl, hbrotli⟩ | ⟨rfl, hgzip⟩)
    · rw [if_pos hbrotli] at hfirst
      rw [hfirst] at hle
      exact hle
    · rw [hbest]
      split
      · exact le_rfl
      · rename_i h
        exact not_lt.mp fun hlt => h ⟨hgzip, hlt⟩
  · intro hpos
    rw [hbest] at hpos ⊢
    split
    · rename_i h
      exact ⟨Or.inr ⟨rfl, h.1⟩, rfl⟩
    · rename_i h
      rw [if_neg h, hfirst] at hpos
      rw [hfirst]
      split
      · rename_i hbrotli
        exact ⟨Or.inl ⟨rfl, hbrotli⟩, rfl⟩
      · rename_i hbrotli
        rw [if_neg hbrotli] at hpos
        exact absurd rfl hpos

/-- Identity is listed with a larger weight than every coding the server can apply. -/
def Negotiator.ListedAbove (n : Negotiator) : Prop :=
  ∃ q, n.prefs.quality (lit "identity") = some q ∧ ∀ coding, n.Enabled coding → n.prefs.weight coding < q

/-- The codings a representation is delivered with when it is preserved. -/
def representationCodings (h : Header) : List Bytes :=
  if currentCoding h ≠ [] ∧ equalFold (currentCoding h) (lit "identity") = false then
    (split (ch ',') (currentCoding h)).map (trimOf (lit " \t"))
  else [lit "identity"]

/-- A fresh coding is allowed: the representation has none yet, and it may be transformed. -/
def Negotiator.FreshAllowed (n : Negotiator) (h : Header) (status : ℕ) : Prop :=
  ¬ (currentCoding h ≠ [] ∧ equalFold (currentCoding h) (lit "identity") = false) ∧
    n.fresh h status = true

variable {n : Negotiator}

theorem selectCoding_of_freshAllowed {status : ℕ} (hfresh : n.FreshAllowed h status) :
    n.selectCoding h status = n.preferredCoding := by
  unfold Negotiator.selectCoding
  simp only
  rw [if_neg hfresh.1, if_neg (by rw [hfresh.2]; simp)]

theorem Best.any_iff {best : Bytes × ℕ} (hbest : Best n best) (hpos : best.2 ≠ 0) :
    (n.prefs.quality (lit "identity")).any (· > best.2) = true ↔ n.ListedAbove := by
  obtain ⟨henabled, hweight⟩ := hbest.enabled hpos
  unfold Negotiator.ListedAbove
  cases n.prefs.quality (lit "identity") with
  | none => simp
  | some q =>
    simp only [Option.any_some, gt_iff_lt, decide_eq_true_eq, Option.some.injEq, exists_eq_left']
    refine ⟨fun hlt coding hcoding => (hbest.max coding hcoding).trans_lt hlt, fun hall => ?_⟩
    rw [← hweight]
    exact hall best.1 henabled

/-- **A new coding** has a positive weight, and is enabled. -/
theorem selectCoding_weight {status : ℕ} (hcoding : (n.selectCoding h status).1 ≠ []) :
    n.Enabled (n.selectCoding h status).1 ∧ n.prefs.weight (n.selectCoding h status).1 ≠ 0 := by
  have hpreferred : n.preferredCoding.1 ≠ [] →
      n.Enabled n.preferredCoding.1 ∧ n.prefs.weight n.preferredCoding.1 ≠ 0 := by
    obtain ⟨best, hbest, heq⟩ := exists_best n
    rw [heq]
    split
    · exact fun hne => absurd rfl hne
    split
    · rename_i hpos
      intro _
      obtain ⟨henabled, hweight⟩ := hbest.enabled (Nat.pos_iff_ne_zero.mp hpos)
      exact ⟨henabled, by rw [hweight]; exact Nat.pos_iff_ne_zero.mp hpos⟩
    · exact fun hne => absurd rfl hne
  by_cases hcurrent : currentCoding h ≠ [] ∧ equalFold (currentCoding h) (lit "identity") = false
  · refine absurd ?_ hcoding
    unfold Negotiator.selectCoding
    simp only [if_pos hcurrent]
  by_cases hfresh : n.fresh h status = true
  · rw [selectCoding_of_freshAllowed ⟨hcurrent, hfresh⟩] at hcoding ⊢
    exact hpreferred hcoding
  · refine absurd ?_ hcoding
    unfold Negotiator.selectCoding
    simp only [if_neg hcurrent, if_pos (Bool.not_eq_true _ ▸ hfresh)]

/-- **A preserved representation** has no coding of weight zero. -/
theorem selectCoding_preserves {status : ℕ} (hselect : n.selectCoding h status = ([], true)) :
    ∀ coding ∈ representationCodings h, n.prefs.weight coding ≠ 0 := by
  unfold representationCodings
  by_cases hcurrent : currentCoding h ≠ [] ∧ equalFold (currentCoding h) (lit "identity") = false
  · rw [if_pos hcurrent]
    unfold Negotiator.selectCoding at hselect
    simp only [if_pos hcurrent, Prod.mk.injEq, true_and] at hselect
    intro coding hcoding
    obtain ⟨text, htext, rfl⟩ := List.mem_map.mp hcoding
    have haccepted := List.all_eq_true.mp hselect text htext
    rw [Bool.not_eq_true', Bool.or_eq_false_iff, Bool.or_eq_false_iff] at haccepted
    obtain ⟨⟨-, hvalid⟩, hweight⟩ := haccepted
    rw [weight_normalizeCoding n.prefs (by simpa using hvalid)] at hweight
    simpa using hweight
  rw [if_neg hcurrent]
  intro coding hcoding
  rw [List.mem_singleton.mp hcoding]
  by_cases hfresh : n.fresh h status = true
  · rw [selectCoding_of_freshAllowed ⟨hcurrent, hfresh⟩] at hselect
    obtain ⟨best, hbest, heq⟩ := exists_best n
    rw [heq] at hselect
    split at hselect
    · -- identity is listed, with a positive weight
      rename_i hany
      have hpresent : n.prefs.present = true := by
        simp only [Negotiator.fresh, Bool.and_eq_true] at hfresh
        exact hfresh.1.1.1.1
      cases hlisted : n.prefs.quality (lit "identity") with
      | none =>
        rw [hlisted] at hany
        cases hany
      | some q =>
        rw [hlisted, Option.any_some, decide_eq_true_eq] at hany
        rw [weight_of_listed hpresent (by decide) hlisted]
        omega
    split at hselect
    · rename_i hpos
      obtain ⟨henabled, -⟩ := hbest.enabled (Nat.pos_iff_ne_zero.mp hpos)
      rw [Prod.mk.injEq] at hselect
      rw [hselect.1] at henabled
      rcases henabled with ⟨hbad, -⟩ | ⟨hbad, -⟩ <;> cases hbad
    · rw [Prod.mk.injEq, decide_eq_true_eq] at hselect
      exact Nat.pos_iff_ne_zero.mp hselect.2
  · unfold Negotiator.selectCoding at hselect
    simp only [if_neg hcurrent, if_pos (Bool.not_eq_true _ ▸ hfresh), Prod.mk.injEq, true_and,
      decide_eq_true_eq] at hselect
    exact Nat.pos_iff_ne_zero.mp hselect

/-- **Refusal.**  Where a fresh coding is allowed, only a request that excludes identity and every
enabled coding is refused. -/
theorem preferredCoding_refuses (hpresent : n.prefs.present = true) :
    n.preferredCoding.2 = false ↔ n.prefs.weight (lit "identity") = 0 ∧
      ∀ coding, n.Enabled coding → n.prefs.weight coding = 0 := by
  obtain ⟨best, hbest, heq⟩ := exists_best n
  rw [heq]
  by_cases hany : (n.prefs.quality (lit "identity")).any (· > best.2) = true
  · rw [if_pos hany]
    refine iff_of_false (by simp) fun hzero => ?_
    cases hlisted : n.prefs.quality (lit "identity") with
    | none =>
      rw [hlisted] at hany
      cases hany
    | some q =>
      rw [hlisted, Option.any_some, decide_eq_true_eq] at hany
      rw [weight_of_listed hpresent (by decide) hlisted] at hzero
      omega
  rw [if_neg hany]
  by_cases hpos : best.2 > 0
  · rw [if_pos hpos]
    refine iff_of_false (by simp) fun hzero => ?_
    obtain ⟨henabled, hweight⟩ := hbest.enabled (Nat.pos_iff_ne_zero.mp hpos)
    rw [hzero.2 best.1 henabled] at hweight
    omega
  · rw [if_neg hpos]
    have hall : ∀ coding, n.Enabled coding → n.prefs.weight coding = 0 := by
      intro coding hcoding
      have hle := hbest.max coding hcoding
      omega
    simp only [gt_iff_lt, decide_eq_false_iff_not, not_lt, Nat.le_zero]
    exact ⟨fun h => ⟨h, hall⟩, fun h => h.1⟩

/-- **Optimality.**  With an acceptable enabled coding, the best one is applied, unless identity is
listed above them all; without one, none is applied. -/
theorem preferredCoding_best (n : Negotiator) :
    ((∃ coding, n.Enabled coding ∧ n.prefs.weight coding ≠ 0) →
      (n.ListedAbove → n.preferredCoding = ([], true)) ∧
      (¬ n.ListedAbove → n.preferredCoding.2 = true ∧ n.Enabled n.preferredCoding.1 ∧
        ∀ coding, n.Enabled coding → n.prefs.weight coding ≤ n.prefs.weight n.preferredCoding.1)) ∧
    ((∀ coding, n.Enabled coding → n.prefs.weight coding = 0) → n.preferredCoding.1 = []) := by
  obtain ⟨best, hbest, heq⟩ := exists_best n
  rw [heq]
  constructor
  · rintro ⟨coding, hcoding, hweight⟩
    have hle := hbest.max coding hcoding
    have hpos : best.2 ≠ 0 := by omega
    rw [← hbest.any_iff hpos]
    refine ⟨fun hany => if_pos hany, fun hany => ?_⟩
    rw [if_neg hany, if_pos (Nat.pos_of_ne_zero hpos)]
    obtain ⟨henabled, hbestweight⟩ := hbest.enabled hpos
    refine ⟨rfl, henabled, fun c hc => ?_⟩
    rw [hbestweight]
    exact hbest.max c hc
  · intro hzero
    split
    · rfl
    split
    · rename_i hpos
      obtain ⟨henabled, hweight⟩ := hbest.enabled (Nat.pos_iff_ne_zero.mp hpos)
      rw [hzero best.1 henabled] at hweight
      omega
    · rfl

/-- The loop keeps a positive weight with its coding. -/
theorem bestEncoding_weight (p : EncodingPreferences) {best : Bytes × ℕ} (names : List Bytes)
    (h : best.1 = [] ∨ p.weight best.1 ≠ 0) :
    (bestEncoding p best names).1 = [] ∨ p.weight (bestEncoding p best names).1 ≠ 0 := by
  induction names generalizing best with
  | nil => exact h
  | cons name names ih =>
    rw [bestEncoding]
    refine ih ?_
    split
    · rename_i hlt
      exact Or.inr (by show p.weight name ≠ 0; omega)
    · exact h

theorem selectResponseEncoding_weight {p : EncodingPolicy}
    (hvalid : (parseAcceptEncoding h).2 = true)
    (hpresent : (parseAcceptEncoding h).1.present = true)
    (hcoding : selectResponseEncoding h p ≠ []) :
    (parseAcceptEncoding h).1.weight (selectResponseEncoding h p) ≠ 0 := by
  obtain ⟨prefs, valid, hparse⟩ : ∃ prefs valid, parseAcceptEncoding h = (prefs, valid) := ⟨_, _, rfl⟩
  rw [hparse] at hvalid hpresent
  have hselect : ∀ names, (bestEncoding prefs ([], 0) names).1 = [] ∨
      prefs.weight (bestEncoding prefs ([], 0) names).1 ≠ 0 :=
    fun names => bestEncoding_weight prefs names (Or.inl rfl)
  unfold selectResponseEncoding at hcoding ⊢
  rw [hparse] at hcoding ⊢
  simp only at hvalid hpresent
  simp only [hvalid, hpresent, Bool.true_eq_false, if_false] at hcoding ⊢
  by_cases hidentity : (prefs.quality (lit "identity")).getD 0 > (bestEncoding prefs ([], 0)
      (if p.defaultEncoding ≠ [] ∧ prefs.quality p.defaultEncoding = none then
        p.defaultEncoding :: p.encodings else p.encodings)).2
  · rw [if_pos hidentity] at hcoding
    exact absurd rfl hcoding
  · rw [if_neg hidentity] at hcoding ⊢
    exact (hselect _).resolve_left hcoding

/-- **Negotiation.**  The weights of an `Accept-Encoding` field do not depend on the order of its
members or on how they are grouped into lines; no chosen coding and no coding of a preserved
representation has weight zero; where a fresh coding is allowed, only a request that excludes identity
and every enabled coding is refused, and the best enabled coding is applied if it is acceptable and
identity is not listed above it. -/
theorem negotiation (a b : Header) (hmembers : (acceptMembers a).Perm (acceptMembers b))
    (hpresent : (cacheHeaderValues a (lit "Accept-Encoding")).2 =
      (cacheHeaderValues b (lit "Accept-Encoding")).2)
    (n : Negotiator) (h : Header) (status : ℕ) (request : Header) (p : EncodingPolicy) :
    ((parseAcceptEncoding a).2 = (parseAcceptEncoding b).2 ∧ ((parseAcceptEncoding a).2 = true →
      ∀ name, (parseAcceptEncoding a).1.weight name = (parseAcceptEncoding b).1.weight name)) ∧
    ((n.selectCoding h status).1 ≠ [] → n.prefs.weight (n.selectCoding h status).1 ≠ 0) ∧
    (n.selectCoding h status = ([], true) →
      ∀ coding ∈ representationCodings h, n.prefs.weight coding ≠ 0) ∧
    (n.FreshAllowed h status →
      ((n.selectCoding h status).2 = false ↔ n.prefs.weight (lit "identity") = 0 ∧
        ∀ coding, n.Enabled coding → n.prefs.weight coding = 0) ∧
      ((∃ coding, n.Enabled coding ∧ n.prefs.weight coding ≠ 0) →
        (n.ListedAbove → n.selectCoding h status = ([], true)) ∧
        (¬ n.ListedAbove → (n.selectCoding h status).2 = true ∧ n.Enabled (n.selectCoding h status).1 ∧
          ∀ coding, n.Enabled coding →
            n.prefs.weight coding ≤ n.prefs.weight (n.selectCoding h status).1)) ∧
      ((∀ coding, n.Enabled coding → n.prefs.weight coding = 0) → (n.selectCoding h status).1 = [])) ∧
    ((parseAcceptEncoding request).2 = true → (parseAcceptEncoding request).1.present = true →
      selectResponseEncoding request p ≠ [] →
      (parseAcceptEncoding request).1.weight (selectResponseEncoding request p) ≠ 0) := by
  obtain ⟨hvalid, hsame⟩ := parseAcceptEncoding_perm hmembers hpresent
  refine ⟨⟨hvalid, fun hv name => by rw [hsame hv]⟩, fun hc => (selectCoding_weight hc).2,
    selectCoding_preserves, fun hfresh => ?_, selectResponseEncoding_weight⟩
  have hprefs : n.prefs.present = true := by
    have hflags := hfresh.2
    simp only [Negotiator.fresh, Bool.and_eq_true] at hflags
    exact hflags.1.1.1.1
  rw [selectCoding_of_freshAllowed hfresh]
  exact ⟨preferredCoding_refuses hprefs, preferredCoding_best n⟩

/-- A header whose `Accept-Encoding` field has the given lines. -/
def accepting (lines : List Bytes) : Header :=
  ⟨[(lit "Accept-Encoding", lines)], List.nodup_singleton _⟩

/-- A response header without fields. -/
def plainHeader : Header := ⟨[], List.nodup_nil⟩

/-- Both codings are enabled for a request with the given lines. -/
def negotiatorFor (lines : List Bytes) : Negotiator :=
  ⟨(parseAcceptEncoding (accepting lines)).1, true, true, true⟩

def defaultPolicy : EncodingPolicy := { encodings := [lit "gzip", lit "br", lit "zstd"], minimumBytes := 1024 }

theorem negotiation_reordered :
    (parseAcceptEncoding (accepting [lit "br;q=0.5, gzip"])).2 = true ∧
    (parseAcceptEncoding (accepting [lit "br;q=0.5, gzip"])).1.weight (lit "gzip") =
      (parseAcceptEncoding (accepting [lit "gzip", lit ", br;q=0.5"])).1.weight (lit "gzip") ∧
    (negotiatorFor [lit "br;q=0.5, gzip"]).selectCoding plainHeader 200 = (lit "gzip", true) ∧
    (negotiatorFor [lit "br;q=0.5, gzip"]).prefs.weight (lit "gzip") ≠ 0 := by
  have hselect : (negotiatorFor [lit "br;q=0.5, gzip"]).selectCoding plainHeader 200 =
      (lit "gzip", true) := by decide
  have hvalid : (parseAcceptEncoding (accepting [lit "br;q=0.5, gzip"])).2 = true := by decide
  obtain ⟨⟨-, hweights⟩, hpositive, -⟩ := negotiation (accepting [lit "br;q=0.5, gzip"])
    (accepting [lit "gzip", lit ", br;q=0.5"]) (by decide) (by decide)
    (negotiatorFor [lit "br;q=0.5, gzip"]) plainHeader 200 plainHeader defaultPolicy
  rw [hselect] at hpositive
  exact ⟨hvalid, hweights hvalid (lit "gzip"), hselect, hpositive (by decide)⟩

/-- A request that lists only `deflate` is answered without a coding, though it is not refused and does
not list identity. -/
theorem deflate_preserved :
    (negotiatorFor [lit "deflate"]).FreshAllowed plainHeader 200 ∧
    (negotiatorFor [lit "deflate"]).prefs.weight (lit "identity") = 1000 ∧
    (negotiatorFor [lit "deflate"]).prefs.quality (lit "identity") = none ∧
    (negotiatorFor [lit "deflate"]).Enabled (lit "gzip") ∧
    (negotiatorFor [lit "deflate"]).selectCoding plainHeader 200 = ([], true) := by
  refine ⟨⟨by decide, by decide⟩, by decide, by decide,
    Or.inr ⟨rfl, rfl⟩, by decide⟩

end Statute.Encoding
