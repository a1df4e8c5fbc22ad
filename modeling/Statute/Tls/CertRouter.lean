import Mathlib.Data.List.Nodup
import Statute.Tls.Names

/-!
# Certificate routing

The certificate router of `certrouter.go` and `acmeManager.matchDomain`.  The router finds a wildcard by
cutting the first label off the host and looking the rest up in a map; the manager it selects finds its
domain again by a suffix test and by counting dots over the list of its domains.

* `Covers`: the abstract relation, a name covers itself and a wildcard one more label;
* `select_iff`: the router selects an exact name first, and then the one wildcard that covers;
* `matchDomain_eq`: the manager returns the covering domain;
* `cert_routing`: the two agree.
-/

namespace Statute.Tls

open Statute.Base

/-! ### The manager -/

/-- The ASCII byte in lower case that the first character of a text folds to, and what follows it: beside
the two cases of a letter, `ſ` folds to `s` and the Kelvin sign to `k`. -/
def foldRune : Bytes → Option (UInt8 × Bytes)
  | [] => none
  | b :: rest =>
    if b < 128 then some (lowerByte b, rest)
    else if hasPrefix (b :: rest) [0xC5, 0xBF] then some (ch 's', rest.drop 1)
    else if hasPrefix (b :: rest) [0xE2, 0x84, 0xAA] then some (ch 'k', rest.drop 2)
    else none

/-- `strings.EqualFold` of an ASCII name and a text. -/
def equalFoldName : Bytes → Bytes → Bool
  | [], host => host.isEmpty
  | c :: d, host =>
    match foldRune host with
    | some (a, rest) => a == lowerByte c && equalFoldName d rest
    | none => false

def matchDomain (domains : List Bytes) (host : Bytes) : Option Bytes :=
  match domains.find? fun d => equalFoldName d host with
  | some d => some d
  | none =>
    domains.find? fun d =>
      hasPrefix d (lit "*.") && (hasSuffix (toLower host) (toLower (d.drop 1)) &&
        host.count (ch '.') == d.count (ch '.'))

/-! ### The router -/

/-- `resolved.AutoTLS`: whether the source has a manager of its own, and its domains. -/
structure AutoTLS where
  pinned : Bool
  domains : List Bytes

/-- What answers a handshake. -/
inductive CertGetter where
  /-- the manager of the pinned source at that position -/
  | manager (source : ℕ)
  | autocert
  /-- the static key pair at that position -/
  | static (source : ℕ)
deriving DecidableEq

/-- The TLS sources of a listener; an empty static host is the fallback. -/
structure CertListener where
  acme : List AutoTLS
  statics : List Bytes

variable {n : ℕ} {m c : UInt8} {d host rest : Bytes} (l : CertListener)

/-- The patterns of the ACME sources in the order they are added. -/
def CertListener.acmePatterns : List (Bytes × CertGetter) :=
  l.acme.zipIdx.flatMap fun a => a.1.domains.map fun d => (d, if a.1.pinned then .manager a.2 else .autocert)

/-- The patterns of the static sources in the order they are added. -/
def CertListener.staticPatterns : List (Bytes × CertGetter) :=
  l.statics.zipIdx.filterMap fun s => if s.1 = [] then none else some (s.1, .static s.2)

def CertListener.patterns : List (Bytes × CertGetter) := l.acmePatterns ++ l.staticPatterns

structure CertRouter where
  names : NameIndex CertGetter := {}
  fallback : Option CertGetter := none
deriving DecidableEq

/-- `certRouter.add` for one pattern after the other. -/
def addPatterns {β : Type} (idna : Idna) : NameIndex β → List (Bytes × β) → Option (NameIndex β)
  | index, [] => some index
  | index, (pattern, value) :: rest => (index.add idna pattern value).bind (addPatterns idna · rest)

/-- The last hostless static source. -/
def CertListener.fallback : Option CertGetter :=
  (l.statics.zipIdx.filter fun s => s.1 == []).getLast?.map fun s => .static s.2

/-- `buildCertRouter`, without the loading of key pairs. -/
def buildCertRouter (idna : Idna) (l : CertListener) : Option CertRouter :=
  (addPatterns idna {} l.acmePatterns).bind fun names =>
    (addPatterns idna names l.staticPatterns).bind fun names =>
      if names.exact = [] ∧ names.wildcards = [] ∧ l.fallback = none then none
      else some { names := names, fallback := l.fallback }

def CertRouter.getCertificate (idna : Idna) (r : CertRouter) (serverName : Bytes) : Option CertGetter :=
  let host := canonicalTLSName idna serverName
  match r.names.lookup idna host with
  | some g => some g
  | none => r.fallback

/-- The entry the lookup of a canonical name finds. -/
def NameIndex.select {β : Type} (index : NameIndex β) (host : Bytes) : Option (Bytes × β) :=
  match index.exact.lookup host with
  | some value => some (host, value)
  | none =>
    match splitAtByte (ch '.') host with
    | some (_, rest) =>
      if rest ≠ [] then (index.wildcards.lookup (lit "*." ++ rest)).map fun v => (lit "*." ++ rest, v) else none
    | none => none

theorem lookupCanonical_eq_select {β : Type} (index : NameIndex β) (host : Bytes) :
    index.lookupCanonical host = (index.select host).map Prod.snd := by
  rw [NameIndex.lookupCanonical, NameIndex.select]
  cases index.exact.lookup host with
  | some value => rfl
  | none =>
    cases splitAtByte (ch '.') host with
    | none => rfl
    | some parts =>
      simp only
      by_cases hrest : parts.2 = []
      · simp [hrest]
      · simp only [ne_eq, hrest, not_false_eq_true, if_true, Option.map_map]
        exact Option.map_id'.symm

/-! ### Covering -/

/-- **Covering.**  A wildcard pattern covers the names with one more label, another pattern itself. -/
def Covers (pattern host : Bytes) : Prop :=
  if hasPrefix pattern (lit "*.") then
    ∃ label rest, ch '.' ∉ label ∧ host = label ++ ch '.' :: rest ∧ pattern = lit "*." ++ rest
  else pattern = host

theorem covers_wildcard (rest host : Bytes) : Covers (lit "*." ++ rest) host ↔
    ∃ label, ch '.' ∉ label ∧ host = label ++ ch '.' :: rest := by
  rw [Covers, if_pos ((hasPrefix_iff _ _).mpr (List.prefix_append _ _))]
  constructor
  · rintro ⟨label, rest', hlabel, hhost, hpattern⟩
    obtain rfl := List.append_cancel_left hpattern
    exact ⟨label, hlabel, hhost⟩
  · rintro ⟨label, hlabel, hhost⟩
    exact ⟨label, rest, hlabel, hhost, rfl⟩

variable {s : Bytes}

/-- The dots before and after the first one. -/
theorem splitAtByte_unique {a b t : Bytes} (ha : c ∉ a) (hb : c ∉ b)
    (h : a ++ c :: s = b ++ c :: t) : a = b ∧ s = t := by
  have hleft : splitAtByte c (a ++ c :: s) = some (a, s) := splitAtByte_eq_some_iff.mpr ⟨ha, rfl⟩
  have hright : splitAtByte c (a ++ c :: s) = some (b, t) := splitAtByte_eq_some_iff.mpr ⟨hb, h⟩
  rw [hleft, Option.some.injEq, Prod.mk.injEq] at hright
  exact hright

/-- Only one wildcard covers a host. -/
theorem covers_wildcard_unique {p q host : Bytes} (hp : hasPrefix p (lit "*.") = true)
    (hq : hasPrefix q (lit "*.") = true) (hcp : Covers p host) (hcq : Covers q host) : p = q := by
  rw [Covers, if_pos hp] at hcp
  rw [Covers, if_pos hq] at hcq
  obtain ⟨a, s, ha, hhost, rfl⟩ := hcp
  obtain ⟨b, t, hb, hhost', rfl⟩ := hcq
  rw [(splitAtByte_unique ha hb (hhost.symm.trans hhost')).2]

/-- A wildcard covers its own text. -/
theorem covers_self {p : Bytes} (hp : hasPrefix p (lit "*.") = true) : Covers p p := by
  obtain ⟨rest, rfl⟩ := (hasPrefix_iff _ _).mp hp
  exact (covers_wildcard rest _).mpr ⟨[ch '*'], by decide, rfl⟩

/-- The manager's test of a wildcard domain. -/
theorem wildcard_test_iff (hwild : hasPrefix d (lit "*.") = true) (hd : toLower d = d)
    (hhost : toLower host = host) :
    (hasSuffix (toLower host) (toLower (d.drop 1)) && host.count (ch '.') == d.count (ch '.')) = true ↔
      Covers d host := by
  obtain ⟨rest, rfl⟩ := (hasPrefix_iff _ _).mp hwild
  have hdrop : (lit "*." ++ rest).drop 1 = ch '.' :: rest := rfl
  have hlower : toLower (ch '.' :: rest) = ch '.' :: rest := by
    rw [toLower_append] at hd
    have hrest := List.append_cancel_left (hd.trans (by rw [show toLower (lit "*.") = lit "*." by decide]))
    rw [show ch '.' :: rest = lit "." ++ rest from rfl, toLower_append,
      show toLower (lit ".") = lit "." by decide, hrest]
  have hcount : (lit "*." ++ rest).count (ch '.') = rest.count (ch '.') + 1 := by
    rw [List.count_append, show (lit "*.").count (ch '.') = 1 by decide, Nat.add_comm]
  rw [hdrop, hlower, hhost, hcount, covers_wildcard, Bool.and_eq_true, hasSuffix_iff, beq_iff_eq]
  constructor
  · rintro ⟨⟨label, hlabel⟩, hdots⟩
    refine ⟨label, ?_, hlabel.symm⟩
    rw [← hlabel, List.count_append, List.count_cons_self] at hdots
    exact List.count_eq_zero.mp (by omega)
  · rintro ⟨label, hnot, rfl⟩
    refine ⟨List.suffix_append _ _, ?_⟩
    rw [List.count_append, List.count_cons_self, List.count_eq_zero.mpr hnot, Nat.zero_add]

/-! ### Canonical names are fixed -/

theorem trimSpace_length_le (s : Bytes) : (trimSpace s).length ≤ s.length := by
  have hleft := (trimLeft_suffix s).length_le
  have hright := (trimReversed_suffix (trimLeft s).reverse).length_le
  rw [List.length_reverse] at hright
  rw [trimSpace, List.length_reverse]
  omega

/-- Trimming space that changes nothing in length changes nothing. -/
theorem trimSpace_eq_of_length (h : s.length ≤ (trimSpace s).length) : trimSpace s = s := by
  have hleft := (trimLeft_suffix s).length_le
  have hright := (trimReversed_suffix (trimLeft s).reverse).length_le
  rw [trimSpace, List.length_reverse] at h
  rw [List.length_reverse] at hright
  have htail : trimReversed (trimLeft s).reverse = (trimLeft s).reverse :=
    (trimReversed_suffix _).eq_of_length (by rw [List.length_reverse]; omega)
  rw [trimSpace, htail, List.reverse_reverse]
  exact (trimLeft_suffix s).eq_of_length (by omega)

theorem trimRound_length_le (s : Bytes) : (trimRound s).length ≤ s.length :=
  (cutSuffix_length_le _ _).trans (trimSpace_length_le s)

theorem trimRound_eq_of_length (h : s.length ≤ (trimRound s).length) : trimRound s = s := by
  have hcut := cutSuffix_length_le (trimSpace s) (lit ".")
  have hspace : trimSpace s = s := trimSpace_eq_of_length (h.trans hcut)
  rw [trimRound, hspace] at h ⊢
  rw [cutSuffix] at h ⊢
  split
  · rename_i hdot
    rw [if_pos hdot] at h
    have hlen := ((hasSuffix_iff _ _).mp hdot).length_le
    rw [List.length_take, show (lit ".").length = 1 from rfl] at h
    rw [show (lit ".").length = 1 from rfl] at hlen
    omega
  · rfl

/-- The loop of `trimTLSName` ends at a fixed point. -/
theorem trimRound_trimLoop (hn : s.length ≤ n) : trimRound (trimLoop n s) = trimLoop n s := by
  induction n generalizing s with
  | zero =>
    rw [trimLoop, List.length_eq_zero_iff.mp (Nat.le_zero.mp hn)]
    decide
  | succ n ih =>
    rw [trimLoop]
    by_cases hfix : trimRound s = s
    · rw [if_pos hfix, hfix]
    · rw [if_neg hfix]
      refine ih ?_
      have hshort : ¬ s.length ≤ (trimRound s).length := fun hle => hfix (trimRound_eq_of_length hle)
      omega

theorem trimTLSName_of_fixed (h : trimRound s = s) : trimTLSName s = s := by
  rw [trimTLSName]
  cases s.length with
  | zero => rw [trimLoop]
  | succ n => rw [trimLoop, if_pos h]

theorem trimTLSName_fixed (s : Bytes) : trimTLSName (trimTLSName s) = trimTLSName s :=
  trimTLSName_of_fixed (trimRound_trimLoop le_rfl)

theorem trimLoop_length_le (n : ℕ) (s : Bytes) : (trimLoop n s).length ≤ s.length := by
  induction n generalizing s with
  | zero => rw [trimLoop]
  | succ n ih =>
    rw [trimLoop]
    split
    · exact le_rfl
    · exact (ih _).trans (trimRound_length_le s)

theorem trimTLSName_eq_of_length (h : s.length ≤ (trimTLSName s).length) : trimTLSName s = s := by
  refine trimTLSName_of_fixed ?_
  rw [trimTLSName] at h
  cases hn : s.length with
  | zero =>
    rw [List.length_eq_zero_iff.mp hn]
    decide
  | succ n =>
    rw [hn, trimLoop] at h
    by_contra hfix
    rw [if_neg hfix] at h
    have hloop := trimLoop_length_le n (trimRound s)
    exact hfix (trimRound_eq_of_length (by omega))

theorem mem_of_mem_trimLoop (h : c ∈ trimLoop n s) : c ∈ s := by
  induction n generalizing s with
  | zero => exact h
  | succ n ih =>
    rw [trimLoop] at h
    split at h
    · exact h
    · have hround := ih h
      rw [trimRound, cutSuffix] at hround
      split at hround
      · exact mem_of_mem_trimSpace (List.mem_of_mem_take hround)
      · exact mem_of_mem_trimSpace hround

/-- A text is in lower case when its bytes are. -/
theorem toLower_eq_self_iff (s : Bytes) : toLower s = s ↔ ∀ c ∈ s, lowerByte c = c := by
  induction s with
  | nil => simp [toLower]
  | cons c s ih =>
    rw [toLower, List.map_cons, List.cons.injEq, List.forall_mem_cons]
    exact and_congr_right fun _ => ih

theorem toLower_trimTLSName (h : toLower s = s) : toLower (trimTLSName s) = trimTLSName s := by
  rw [toLower_eq_self_iff] at h ⊢
  exact fun c hc => h c (mem_of_mem_trimLoop hc)

section Canonical

variable (idna : Idna)

/-- The wildcard mark of a name and what follows it. -/
def splitMark (n : Bytes) : Bytes × Bytes := if hasPrefix n (lit "*.") then (lit "*.", n.drop 2) else ([], n)

variable (n name : Bytes)

theorem splitMark_append : (splitMark n).1 ++ (splitMark n).2 = n := by
  rw [splitMark]
  split
  · rename_i h
    obtain ⟨rest, rfl⟩ := (hasPrefix_iff _ _).mp h
    rfl
  · rfl

theorem toLower_mark : toLower (splitMark n).1 = (splitMark n).1 := by
  have hmark : toLower (lit "*.") = lit "*." := by decide
  rw [splitMark]
  split
  · exact hmark
  · rfl

theorem canonicalTLSName_eq : canonicalTLSName idna name =
    match idna.toASCII (splitMark (trimTLSName name)).2 with
    | none => (splitMark (trimTLSName name)).1 ++ toLower (splitMark (trimTLSName name)).2
    | some a => trimTLSName ((splitMark (trimTLSName name)).1 ++ toLower a) := rfl

/-- `canonicalTLSNameStrict`, `none` on an error. -/
def canonicalTLSNameStrict (name : Bytes) : Option Bytes :=
  (idna.toASCII (splitMark (trimTLSName name)).2).map fun a =>
    trimTLSName ((splitMark (trimTLSName name)).1 ++ toLower a)

/-- A canonical name is in lower case. -/
theorem toLower_canonicalTLSName :
    toLower (canonicalTLSName idna name) = canonicalTLSName idna name := by
  rw [canonicalTLSName_eq]
  cases idna.toASCII (splitMark (trimTLSName name)).2 with
  | none => rw [toLower_append, toLower_mark, toLower_idem]
  | some a =>
    refine toLower_trimTLSName ?_
    rw [toLower_append, toLower_mark, toLower_idem]

variable {idna}

/-- A canonical name is trimmed. -/
theorem trimTLSName_of_canonical {name : Bytes} (h : canonicalTLSName idna name = name) :
    trimTLSName name = name := by
  rw [canonicalTLSName_eq] at h
  cases hidna : idna.toASCII (splitMark (trimTLSName name)).2 with
  | some a =>
    rw [hidna] at h
    rw [← h]
    exact trimTLSName_fixed _
  | none =>
    rw [hidna] at h
    refine trimTLSName_eq_of_length (le_of_eq ?_)
    have hlen := congrArg List.length h
    rw [List.length_append, toLower_length, ← List.length_append, splitMark_append] at hlen
    exact hlen.symm

end Canonical

/-! ### The manager's comparison -/

/-- **The documented part of the IDNA lookup** that the comparison rests on: a text that folds to an
accepted ASCII name is mapped to it before anything is checked. -/
def Idna.FoldsFirst (idna : Idna) : Prop :=
  ∀ d host, isASCII d = true → equalFoldName d host = true → (idna.toASCII d).isSome = true →
    idna.toASCII host = idna.toASCII d

theorem equalFoldName_cons_ascii {b : UInt8} (hb : b < 128) (d rest : Bytes) :
    equalFoldName (c :: d) (b :: rest) = (lowerByte b == lowerByte c && equalFoldName d rest) := by
  rw [equalFoldName, foldRune, if_pos hb]

theorem equalFoldName_ascii (h : isASCII host = true) :
    equalFoldName d host = true ↔ toLower d = toLower host := by
  rw [isASCII_iff] at h
  induction d generalizing host with
  | nil => cases host <;> simp [equalFoldName, toLower]
  | cons c d ih =>
    cases host with
    | nil => simp [equalFoldName, foldRune, toLower]
    | cons b rest =>
      rw [equalFoldName_cons_ascii (h b List.mem_cons_self), Bool.and_eq_true, beq_iff_eq,
        ih fun x hx => h x (List.mem_cons_of_mem b hx)]
      simp only [toLower, List.map_cons, List.cons.injEq]
      exact and_congr_left fun _ => eq_comm

/-- What a mark is compared with folds to it. -/
theorem eq_mark_of_fold {b : UInt8} (hm : m = ch '*' ∨ m = ch '.') (h : lowerByte b = lowerByte m) :
    b = m := by
  rw [lowerByte, lowerByte] at h
  rcases hm with rfl | rfl
  · grind [ch]
  · grind [ch]

theorem foldRune_mark (hm : m = ch '*' ∨ m = ch '.') {host rest : Bytes}
    (h : foldRune host = some (lowerByte m, rest)) : host = m :: rest := by
  cases host with
  | nil => simp [foldRune] at h
  | cons b tail =>
    rw [foldRune] at h
    split at h
    · rw [Option.some.injEq, Prod.mk.injEq] at h
      rw [eq_mark_of_fold hm h.1, h.2]
    split at h
    · rw [Option.some.injEq, Prod.mk.injEq] at h
      exact absurd h.1 (by rcases hm with rfl | rfl <;> decide)
    split at h
    · rw [Option.some.injEq, Prod.mk.injEq] at h
      exact absurd h.1 (by rcases hm with rfl | rfl <;> decide)
    · cases h

/-- A mark folds to itself only. -/
theorem equalFoldName_cons_mark (hm : m = ch '*' ∨ m = ch '.') {d host : Bytes}
    (h : equalFoldName (m :: d) host = true) : ∃ rest, host = m :: rest ∧ equalFoldName d rest = true := by
  rw [equalFoldName] at h
  cases hrune : foldRune host with
  | none =>
    rw [hrune] at h
    cases h
  | some parts =>
    obtain ⟨a, rest⟩ := parts
    rw [hrune] at h
    simp only [Bool.and_eq_true, beq_iff_eq] at h
    exact ⟨rest, foldRune_mark hm (h.1 ▸ hrune), h.2⟩

theorem equalFoldName_mark_cons (hm : m = ch '*' ∨ m = ch '.') {d rest : Bytes}
    (h : equalFoldName d (m :: rest) = true) : ∃ d', d = m :: d' ∧ equalFoldName d' rest = true := by
  have hlow : m < 128 := by rcases hm with rfl | rfl <;> decide
  cases d with
  | nil => simp [equalFoldName] at h
  | cons c d =>
    rw [equalFoldName_cons_ascii hlow, Bool.and_eq_true, beq_iff_eq] at h
    exact ⟨d, by rw [eq_mark_of_fold hm h.1.symm], h.2⟩

/-- Folding keeps the mark and compares what follows it. -/
theorem equalFoldName_splitMark (h : equalFoldName d host = true) :
    (splitMark d).1 = (splitMark host).1 ∧ equalFoldName (splitMark d).2 (splitMark host).2 = true := by
  by_cases hd : hasPrefix d (lit "*.") = true
  · obtain ⟨rest, rfl⟩ := (hasPrefix_iff _ _).mp hd
    obtain ⟨host₁, rfl, h₁⟩ := equalFoldName_cons_mark (Or.inl rfl) (show equalFoldName (ch '*' :: ch '.' :: rest)
      host = true from h)
    obtain ⟨host₂, rfl, h₂⟩ := equalFoldName_cons_mark (Or.inr rfl) h₁
    exact ⟨rfl, h₂⟩
  · have hhost : ¬ hasPrefix host (lit "*.") = true := by
      intro hstart
      obtain ⟨rest, rfl⟩ := (hasPrefix_iff _ _).mp hstart
      obtain ⟨d₁, rfl, h₁⟩ := equalFoldName_mark_cons (Or.inl rfl)
        (show equalFoldName d (ch '*' :: ch '.' :: rest) = true from h)
      obtain ⟨d₂, rfl, h₂⟩ := equalFoldName_mark_cons (Or.inr rfl) h₁
      exact hd rfl
    rw [splitMark, if_neg hd, splitMark, if_neg hhost]
    exact ⟨rfl, h⟩

/-- A domain of a pinned source, as the resolver leaves it. -/
structure CanonicalDomain (idna : Idna) (d : Bytes) : Prop where
  ascii : isASCII d = true
  canonical : canonicalTLSName idna d = d

section Fold

variable {idna : Idna} {d host : Bytes}

theorem CanonicalDomain.lower (hd : CanonicalDomain idna d) : toLower d = d := by
  rw [← hd.canonical]
  exact toLower_canonicalTLSName idna d

/-- **The comparison** of the manager finds a canonical host only in itself: a host in ASCII because both
are in lower case, another one because the lookup maps it to the domain. -/
theorem eq_of_equalFoldName (hfold : idna.FoldsFirst) (hd : CanonicalDomain idna d)
    (hhost : canonicalTLSName idna host = host)
    (hstrict : isASCII host = true ∨ canonicalTLSNameStrict idna d = some d)
    (h : equalFoldName d host = true) : d = host := by
  rcases hstrict with hascii | hstrict
  · rw [equalFoldName_ascii hascii, hd.lower] at h
    rw [h, ← hhost]
    exact toLower_canonicalTLSName idna host
  · obtain ⟨hmark, hrest⟩ := equalFoldName_splitMark h
    rw [canonicalTLSNameStrict, trimTLSName_of_canonical hd.canonical, Option.map_eq_some_iff] at hstrict
    obtain ⟨a, ha, htrim⟩ := hstrict
    have hascii : isASCII (splitMark d).2 = true := by
      refine isASCII_of_subset hd.ascii fun c hc => ?_
      rw [← splitMark_append d]
      exact List.mem_append_right _ hc
    have hsame := hfold _ _ hascii hrest (by rw [ha]; rfl)
    rw [canonicalTLSName_eq, trimTLSName_of_canonical hhost, hsame, ha, ← hmark] at hhost
    exact htrim.symm.trans hhost

theorem equalFoldName_self (hd : isASCII d = true) : equalFoldName d d = true :=
  (equalFoldName_ascii hd).mpr rfl

/-- **The manager's choice.**  It returns a covering domain, the host itself where that is a domain. -/
theorem matchDomain_eq {domains : List Bytes} {p : Bytes} (hfold : idna.FoldsFirst)
    (hdomains : ∀ d ∈ domains, CanonicalDomain idna d) (hhost : canonicalTLSName idna host = host)
    (hstrict : isASCII host = true ∨ ∀ d ∈ domains, canonicalTLSNameStrict idna d = some d)
    (hp : p ∈ domains) (hcovers : Covers p host) (hexact : host ∈ domains → p = host) :
    matchDomain domains host = some p := by
  have hequal : ∀ d ∈ domains, equalFoldName d host = true → d = host := fun d hd =>
    eq_of_equalFoldName hfold (hdomains d hd) hhost (hstrict.imp_right fun h => h d hd)
  have hlower : toLower host = host := by
    rw [← hhost]
    exact toLower_canonicalTLSName idna host
  rw [matchDomain]
  cases hfind : domains.find? fun d => equalFoldName d host with
  | some d =>
    have hmem := List.mem_of_find?_eq_some hfind
    have hd := hequal d hmem (List.find?_some (p := fun d => equalFoldName d host) hfind)
    rw [hexact (hd ▸ hmem), hd]
  | none =>
    have hne : p ≠ host := by
      intro heq
      have hnot := List.find?_eq_none.mp hfind p hp
      exact hnot (heq ▸ equalFoldName_self (hdomains p hp).ascii)
    have hwild : hasPrefix p (lit "*.") = true := by
      by_contra hplain
      rw [Covers, if_neg hplain] at hcovers
      exact hne hcovers
    -- the first wildcard that passes the test covers the host, so it is the one
    have htest : ∀ d ∈ domains, (hasPrefix d (lit "*.") && (hasSuffix (toLower host) (toLower (d.drop 1)) &&
        host.count (ch '.') == d.count (ch '.'))) = true ↔ d = p := by
      intro d hd
      rw [Bool.and_eq_true]
      constructor
      · rintro ⟨hstart, htest⟩
        rw [wildcard_test_iff hstart (hdomains d hd).lower hlower] at htest
        exact covers_wildcard_unique hstart hwild htest hcovers
      · rintro rfl
        exact ⟨hwild, (wildcard_test_iff hwild (hdomains d hd).lower hlower).mpr hcovers⟩
    cases hsecond : domains.find? fun d => hasPrefix d (lit "*.") &&
        (hasSuffix (toLower host) (toLower (d.drop 1)) && host.count (ch '.') == d.count (ch '.')) with
    | none => exact absurd ((htest p hp).mpr rfl) (List.find?_eq_none.mp hsecond p hp)
    | some d =>
      rw [(htest d (List.mem_of_find?_eq_some hsecond)).mp (List.find?_some (p := fun d =>
        hasPrefix d (lit "*.") && (hasSuffix (toLower host) (toLower (d.drop 1)) &&
          host.count (ch '.') == d.count (ch '.'))) hsecond)]

end Fold

/-! ### The index of a listener -/

section Index

variable {β : Type}

/-- The pattern is a wildcard. -/
def isWildcard (name : Bytes) : Bool := hasPrefix name (lit "*.")

/-- The table a name is looked up in. -/
def NameIndex.table (index : NameIndex β) (name : Bytes) : List (Bytes × β) :=
  if isWildcard name then index.wildcards else index.exact

structure Holds (index : NameIndex β) (entries : List (Bytes × β)) : Prop where
  nodup : (entries.map Prod.fst).Nodup
  exact_eq : index.exact = entries.filter fun e => !isWildcard e.1
  wildcards_eq : index.wildcards = entries.filter fun e => isWildcard e.1

variable {name : Bytes}

theorem lookup_filter_iff {entries : List (Bytes × β)} (hnodup : (entries.map Prod.fst).Nodup)
    (p : Bytes → Bool) (hname : p name = true) (value : β) :
    (entries.filter fun e => p e.1).lookup name = some value ↔ (name, value) ∈ entries := by
  induction entries with
  | nil => simp
  | cons e entries ih =>
    rw [List.map_cons, List.nodup_cons] at hnodup
    obtain ⟨key, v⟩ := e
    by_cases hkey : name = key
    · subst hkey
      rw [List.filter_cons_of_pos (by exact hname), List.lookup_cons_self, Option.some.injEq, List.mem_cons]
      constructor
      · intro hv
        exact Or.inl (by rw [hv])
      · rintro (heq | hmem)
        · exact (Prod.mk.inj heq).2.symm
        · exact absurd (List.mem_map_of_mem (f := Prod.fst) hmem) hnodup.1
    · have hbeq : (name == key) = false := beq_eq_false_iff_ne.mpr hkey
      have hmem : (name, value) ∈ (key, v) :: entries ↔ (name, value) ∈ entries := by
        rw [List.mem_cons, or_iff_right]
        exact fun heq => hkey (Prod.mk.inj heq).1
      rw [hmem, ← ih hnodup.2]
      cases hp : p key with
      | true => rw [List.filter_cons_of_pos (by exact hp), List.lookup_cons, hbeq]
      | false => rw [List.filter_cons_of_neg (by rw [hp]; simp)]

variable {index : NameIndex β} {entries : List (Bytes × β)}

theorem Holds.exact_lookup (h : Holds index entries) (hname : isWildcard name = false) (value : β) :
    index.exact.lookup name = some value ↔ (name, value) ∈ entries := by
  rw [h.exact_eq]
  exact lookup_filter_iff h.nodup (fun n => !isWildcard n) (by rw [hname]; rfl) value

theorem Holds.wildcard_lookup (h : Holds index entries) (hname : isWildcard name = true)
    (value : β) : index.wildcards.lookup name = some value ↔ (name, value) ∈ entries := by
  rw [h.wildcards_eq]
  exact lookup_filter_iff h.nodup isWildcard hname value

/-- A wildcard is no exact name. -/
theorem Holds.exact_lookup_wildcard (h : Holds index entries) (hname : isWildcard name = true) :
    index.exact.lookup name = none := by
  rw [h.exact_eq, List.lookup_eq_none_iff]
  intro e he
  have hplain := (List.mem_filter.mp he).2
  rw [bne_iff_ne, ne_eq]
  rintro rfl
  rw [hname] at hplain
  cases hplain

theorem Holds.nil : Holds ({} : NameIndex β) [] := ⟨List.nodup_nil, rfl, rfl⟩

/-- **One accepted pattern** becomes one more entry, under its canonical name. -/
theorem Holds.add (h : Holds index entries) {idna : Idna} {pattern : Bytes} {value : β} {index' : NameIndex β}
    (hadd : index.add idna pattern value = some index') :
    Holds index' (entries ++ [(canonicalTLSName idna pattern, value)]) := by
  have hfresh : ∀ name, name = canonicalTLSName idna pattern →
      (∀ v, (name, v) ∉ entries) →
      ((entries ++ [(canonicalTLSName idna pattern, value)]).map Prod.fst).Nodup := by
    intro name hname hnot
    rw [List.map_append, List.map_singleton, List.nodup_append]
    refine ⟨h.nodup, List.nodup_singleton _, fun a ha b hb heq => ?_⟩
    obtain ⟨e, he, rfl⟩ := List.mem_map.mp ha
    rw [List.mem_singleton] at hb
    have hkey : e.1 = name := heq.trans (hb.trans hname.symm)
    exact hnot e.2 (hkey ▸ he)
  rw [NameIndex.add] at hadd
  by_cases hwild : isWildcard (canonicalTLSName idna pattern) = true
  · simp only [show hasPrefix (canonicalTLSName idna pattern) (lit "*.") = true from hwild, if_true] at hadd
    split at hadd
    · cases hadd
    · rename_i hnone
      obtain rfl := Option.some.inj hadd
      refine ⟨hfresh _ rfl fun v hv => hnone ?_, ?_, ?_⟩
      · rw [(h.wildcard_lookup hwild v).mpr hv]
        rfl
      · rw [List.filter_append, List.filter_cons_of_neg (by rw [hwild]; simp), List.filter_nil, List.append_nil]
        exact h.exact_eq
      · rw [List.filter_append, List.filter_cons_of_pos (by exact hwild), List.filter_nil]
        exact congrArg (· ++ _) h.wildcards_eq
  · have hplain : isWildcard (canonicalTLSName idna pattern) = false := Bool.not_eq_true _ ▸ hwild
    simp only [show hasPrefix (canonicalTLSName idna pattern) (lit "*.") = false from hplain,
      Bool.false_eq_true, if_false] at hadd
    split at hadd
    · cases hadd
    · rename_i hnone
      obtain rfl := Option.some.inj hadd
      refine ⟨hfresh _ rfl fun v hv => hnone ?_, ?_, ?_⟩
      · rw [(h.exact_lookup hplain v).mpr hv]
        rfl
      · rw [List.filter_append, List.filter_cons_of_pos (by rw [hplain]; rfl), List.filter_nil]
        exact congrArg (· ++ _) h.exact_eq
      · rw [List.filter_append, List.filter_cons_of_neg (by rw [hplain]; simp), List.filter_nil,
          List.append_nil]
        exact h.wildcards_eq

theorem Holds.addPatterns (h : Holds index entries) {idna : Idna} {patterns : List (Bytes × β)}
    {index' : NameIndex β} (hadd : addPatterns idna index patterns = some index') :
    Holds index' (entries ++ patterns.map fun e => (canonicalTLSName idna e.1, e.2)) := by
  induction patterns generalizing index entries with
  | nil =>
    obtain rfl := Option.some.inj hadd
    rw [List.map_nil, List.append_nil]
    exact h
  | cons e patterns ih =>
    obtain ⟨next, hnext, hrest⟩ := Option.bind_eq_some_iff.mp hadd
    have htail := ih (h.add hnext) hrest
    rw [List.append_assoc] at htail
    exact htail

/-- **The lookup** finds an exact name first, and else the wildcard of the host. -/
theorem Holds.select_iff (h : Holds index entries)
    (hmark : ∀ e ∈ entries, ∀ rest, e.1 = lit "*." ++ rest → rest ≠ []) (host p : Bytes) (value : β) :
    index.select host = some (p, value) ↔ (p, value) ∈ entries ∧ Covers p host ∧
      (isWildcard p = true → isWildcard host = false → ∀ v, (host, v) ∉ entries) := by
  rw [NameIndex.select]
  constructor
  · intro hselect
    cases hexact : index.exact.lookup host with
    | some v =>
      rw [hexact, Option.some.injEq, Prod.mk.injEq] at hselect
      obtain ⟨rfl, rfl⟩ := hselect
      have hplain : isWildcard host = false := by
        rw [← Bool.not_eq_true]
        intro hwild
        rw [h.exact_lookup_wildcard hwild] at hexact
        cases hexact
      refine ⟨(h.exact_lookup hplain v).mp hexact, ?_, fun hwild => absurd hwild (by rw [hplain]; simp)⟩
      rw [Covers, if_neg (by rw [show hasPrefix host (lit "*.") = false from hplain]; simp)]
    | none =>
      rw [hexact] at hselect
      cases hcut : splitAtByte (ch '.') host with
      | none =>
        rw [hcut] at hselect
        cases hselect
      | some parts =>
        obtain ⟨label, rest⟩ := parts
        rw [hcut] at hselect
        simp only at hselect
        split at hselect
        · obtain ⟨v, hlookup, heq⟩ := Option.map_eq_some_iff.mp hselect
          rw [Prod.mk.injEq] at heq
          obtain ⟨rfl, rfl⟩ := heq
          have hwild : isWildcard (lit "*." ++ rest) = true := (hasPrefix_iff _ _).mpr (List.prefix_append _ _)
          refine ⟨(h.wildcard_lookup hwild v).mp hlookup, ?_, fun _ hplain v' hmem => ?_⟩
          · exact (covers_wildcard rest host).mpr ⟨label, splitAtByte_eq_some_iff.mp hcut⟩
          · rw [(h.exact_lookup hplain v').mpr hmem] at hexact
            cases hexact
        · cases hselect
  · rintro ⟨hmem, hcovers, hnone⟩
    by_cases hwild : isWildcard p = true
    · have hexact : index.exact.lookup host = none := by
        by_cases hhost : isWildcard host = true
        · exact h.exact_lookup_wildcard hhost
        · rw [Option.eq_none_iff_forall_ne_some]
          intro v hv
          have hplain : isWildcard host = false := Bool.not_eq_true _ ▸ hhost
          exact hnone hwild hplain v ((h.exact_lookup hplain v).mp hv)
      obtain ⟨rest, rfl⟩ := (hasPrefix_iff _ _).mp hwild
      obtain ⟨label, hcut⟩ := (covers_wildcard rest host).mp hcovers
      rw [hexact, splitAtByte_eq_some_iff.mpr hcut]
      simp only
      rw [if_pos (hmark _ hmem rest rfl), (h.wildcard_lookup hwild value).mpr hmem]
      rfl
    · rw [Covers, if_neg (show ¬ hasPrefix p (lit "*.") = true from hwild)] at hcovers
      subst hcovers
      rw [(h.exact_lookup (Bool.not_eq_true _ ▸ hwild) value).mpr hmem]

end Index

/-! ### Router and managers -/

/-- The entries of the router's index. -/
def CertListener.entries (idna : Idna) (l : CertListener) : List (Bytes × CertGetter) :=
  l.patterns.map fun e => (canonicalTLSName idna e.1, e.2)

/-- An accepted listener's router holds the patterns of the listener. -/
theorem buildCertRouter_holds {idna : Idna} {l : CertListener} {r : CertRouter}
    (h : buildCertRouter idna l = some r) : Holds r.names (l.entries idna) := by
  obtain ⟨names, hacme, hrest⟩ := Option.bind_eq_some_iff.mp h
  obtain ⟨names', hstatic, hfinal⟩ := Option.bind_eq_some_iff.mp hrest
  have hholds := (Holds.nil.addPatterns hacme).addPatterns hstatic
  rw [List.nil_append, ← List.map_append] at hholds
  split at hfinal
  · cases hfinal
  · obtain rfl := Option.some.inj hfinal
    exact hholds

/-- No canonical name is a bare wildcard mark. -/
theorem canonicalTLSName_ne_mark (idna : Idna) (name : Bytes) : canonicalTLSName idna name ≠ lit "*." := by
  have hmark : trimTLSName (lit "*.") ≠ lit "*." := by decide
  have hname : trimTLSName name ≠ lit "*." := by
    intro h
    exact hmark (h ▸ trimTLSName_fixed name)
  intro h
  rw [canonicalTLSName_eq] at h
  cases hidna : idna.toASCII (splitMark (trimTLSName name)).2 with
  | some a =>
    rw [hidna] at h
    exact hmark (h ▸ trimTLSName_fixed _)
  | none =>
    rw [hidna] at h
    have hlower : toLower (trimTLSName name) = lit "*." := by
      rw [← splitMark_append (trimTLSName name), toLower_append, toLower_mark]
      exact h
    refine hname ?_
    match htrim : trimTLSName name, hlower with
    | [a, b], hlower =>
      have hbytes : lowerByte a = lowerByte (ch '*') ∧ lowerByte b = lowerByte (ch '.') := by
        have hpair : [lowerByte a, lowerByte b] = [lowerByte (ch '*'), lowerByte (ch '.')] := hlower
        simpa only [List.cons.injEq, and_true] using hpair
      rw [eq_mark_of_fold (Or.inl rfl) hbytes.1, eq_mark_of_fold (Or.inr rfl) hbytes.2]
      rfl
    | [], hlower => cases hlower
    | [_], hlower => exact absurd (congrArg List.length hlower) (by simp [toLower, lit])
    | _ :: _ :: _ :: _, hlower => exact absurd (congrArg List.length hlower) (by simp [toLower, lit])

/-- No entry is a bare wildcard mark. -/
theorem entries_mark (idna : Idna) (l : CertListener) :
    ∀ e ∈ l.entries idna, ∀ rest, e.1 = lit "*." ++ rest → rest ≠ [] := by
  intro e he rest hrest
  obtain ⟨declared, -, rfl⟩ := List.mem_map.mp he
  rintro rfl
  exact canonicalTLSName_ne_mark idna declared.1 hrest

/-- The pinned source at a position. -/
def CertListener.pinnedAt (i : ℕ) (a : AutoTLS) : Prop :=
  l.acme[i]? = some a ∧ a.pinned = true

/-- Where the entries of a manager come from. -/
theorem mem_patterns_manager {l : CertListener} {d : Bytes} {i : ℕ} :
    (d, CertGetter.manager i) ∈ l.patterns ↔ ∃ a, l.pinnedAt i a ∧ d ∈ a.domains := by
  rw [CertListener.patterns, List.mem_append]
  have hstatic : (d, CertGetter.manager i) ∉ l.staticPatterns := by
    rw [CertListener.staticPatterns, List.mem_filterMap]
    rintro ⟨s, -, hs⟩
    split at hs
    · cases hs
    · exact absurd (Prod.mk.inj (Option.some.inj hs)).2 (by simp)
  rw [or_iff_left hstatic, CertListener.acmePatterns, List.mem_flatMap]
  constructor
  · rintro ⟨⟨a, j⟩, ha, hd⟩
    obtain ⟨d', hd', heq⟩ := List.mem_map.mp hd
    rw [Prod.mk.injEq] at heq
    obtain ⟨rfl, hgetter⟩ := heq
    split at hgetter
    · rename_i hpinned
      obtain rfl := CertGetter.manager.inj hgetter
      exact ⟨a, ⟨List.mem_zipIdx_iff_getElem?.mp ha, hpinned⟩, hd'⟩
    · cases hgetter
  · rintro ⟨a, ⟨hget, hpinned⟩, hd⟩
    refine ⟨(a, i), List.mem_zipIdx_iff_getElem?.mpr hget, List.mem_map.mpr ⟨d, hd, ?_⟩⟩
    simp only [hpinned, if_true]

section Routing

variable (idna : Idna) (hfold : idna.FoldsFirst) (l : CertListener) (r : CertRouter)
  (hbuild : buildCertRouter idna l = some r)
  (hdomains : ∀ a ∈ l.acme, a.pinned = true → ∀ d ∈ a.domains, CanonicalDomain idna d) (host : Bytes)
  (hhost : canonicalTLSName idna host = host)

include hdomains in
theorem mem_entries_manager {p : Bytes} {i : ℕ} : (p, CertGetter.manager i) ∈ l.entries idna ↔
    ∃ a, l.pinnedAt i a ∧ p ∈ a.domains := by
  rw [CertListener.entries, List.mem_map]
  constructor
  · rintro ⟨⟨d, g⟩, hmem, heq⟩
    rw [Prod.mk.injEq] at heq
    obtain ⟨hname, rfl⟩ := heq
    obtain ⟨a, ha, hd⟩ := mem_patterns_manager.mp hmem
    have hcanonical := (hdomains a (List.mem_of_getElem? ha.1) ha.2 d hd).canonical
    exact ⟨a, ha, by rw [← hname, hcanonical]; exact hd⟩
  · rintro ⟨a, ha, hp⟩
    refine ⟨(p, .manager i), mem_patterns_manager.mpr ⟨a, ha, hp⟩, ?_⟩
    rw [(hdomains a (List.mem_of_getElem? ha.1) ha.2 p hp).canonical]

include hhost in
theorem getCertificate_of_select {p : Bytes} {g : CertGetter} (h : r.names.select host = some (p, g)) :
    r.getCertificate idna host = some g := by
  have hlookup : r.names.lookup idna host = some g := by
    rw [NameIndex.lookup, hhost, lookupCanonical_eq_select, h]
    rfl
  rw [CertRouter.getCertificate, hhost]
  simp only [hlookup]

include hfold hbuild hdomains hhost in
/-- **Certificate routing.**  A pinned source that the router selects through a pattern finds that pattern
for the host.  A host that one pattern alone covers is routed to the source of that pattern, a host that is
itself a pattern to the source of that name whatever wildcards there are, and a host is only ever routed
through a pattern that covers it. -/
theorem cert_routing (hstrict : isASCII host = true ∨
      ∀ a ∈ l.acme, a.pinned = true → ∀ d ∈ a.domains, canonicalTLSNameStrict idna d = some d) :
    (∀ i p, r.names.select host = some (p, .manager i) →
      ∃ a, l.pinnedAt i a ∧ p ∈ a.domains ∧ matchDomain a.domains host = some p) ∧
    (∀ i a p, l.pinnedAt i a → p ∈ a.domains → Covers p host →
      (∀ e ∈ l.entries idna, Covers e.1 host → e.1 = p) →
      r.getCertificate idna host = some (.manager i) ∧ matchDomain a.domains host = some p) ∧
    (∀ g, (host, g) ∈ l.entries idna → isWildcard host = false → r.getCertificate idna host = some g) ∧
    ∀ p g, r.names.select host = some (p, g) → (p, g) ∈ l.entries idna ∧ Covers p host := by
  have hholds := buildCertRouter_holds hbuild
  have hselect := hholds.select_iff (entries_mark idna l) host
  have hmatch : ∀ i p, r.names.select host = some (p, .manager i) →
      ∃ a, l.pinnedAt i a ∧ p ∈ a.domains ∧ matchDomain a.domains host = some p := by
    intro i p h
    obtain ⟨hmem, hcovers, hexact⟩ := (hselect _ _).mp h
    obtain ⟨a, ha, hp⟩ := (mem_entries_manager idna l hdomains).mp hmem
    have hin := List.mem_of_getElem? ha.1
    refine ⟨a, ha, hp, matchDomain_eq hfold (hdomains a hin ha.2) hhost
      (hstrict.imp_right fun h => h a hin ha.2) hp hcovers fun hown => ?_⟩
    -- the host is a domain of the source: as a plain name it would have been found first
    have hentry := (mem_entries_manager idna l hdomains).mpr ⟨a, ha, hown⟩
    by_cases hwild : isWildcard p = true
    · by_cases hhostWild : isWildcard host = true
      · exact covers_wildcard_unique hwild hhostWild hcovers (covers_self hhostWild)
      · exact absurd hentry (hexact hwild (Bool.not_eq_true _ ▸ hhostWild) _)
    · rw [Covers, if_neg (show ¬ hasPrefix p (lit "*.") = true from hwild)] at hcovers
      exact hcovers
  refine ⟨hmatch, ?_, ?_, fun p g h => ⟨((hselect _ _).mp h).1, ((hselect _ _).mp h).2.1⟩⟩
  · intro i a p ha hp hcovers honly
    have hmem := (mem_entries_manager idna l hdomains).mpr ⟨a, ha, hp⟩
    have hrouted : r.names.select host = some (p, .manager i) := by
      refine (hselect _ _).mpr ⟨hmem, hcovers, fun hwild hplain v hv => ?_⟩
      have hself : Covers host host := by
        rw [Covers, if_neg (by rw [show hasPrefix host (lit "*.") = false from hplain]; simp)]
      have hsame : host = p := honly _ hv hself
      rw [hsame, hwild] at hplain
      exact absurd hplain (by simp)
    obtain ⟨a', ha', -, hdomain⟩ := hmatch i p hrouted
    have hsame : a' = a := Option.some.inj (ha'.1.symm.trans ha.1)
    exact ⟨getCertificate_of_select idna r host hhost hrouted, hsame ▸ hdomain⟩
  · intro g hmem hplain
    refine getCertificate_of_select idna r host hhost ((hselect _ _).mpr ⟨hmem, ?_, fun hwild => ?_⟩)
    · rw [Covers, if_neg (by rw [show hasPrefix host (lit "*.") = false from hplain]; simp)]
    · rw [hplain] at hwild
      exact absurd hwild (by simp)

end Routing

def foldText : ℕ → Bytes → Option Bytes
  | _, [] => some []
  | 0, _ :: _ => none
  | n + 1, b :: rest => (foldRune (b :: rest)).bind fun parts => (foldText n parts.2).map (parts.1 :: ·)

theorem foldRune_length {a : UInt8} (h : foldRune s = some (a, rest)) : rest.length < s.length := by
  cases s with
  | nil => simp [foldRune] at h
  | cons b tail =>
    rw [foldRune] at h
    split at h
    · rw [← (Prod.mk.inj (Option.some.inj h)).2, List.length_cons]
      omega
    split at h
    · rw [← (Prod.mk.inj (Option.some.inj h)).2, List.length_cons, List.length_drop]
      omega
    split at h
    · rw [← (Prod.mk.inj (Option.some.inj h)).2, List.length_cons, List.length_drop]
      omega
    · cases h

theorem foldText_of_equalFoldName (hn : host.length ≤ n)
    (h : equalFoldName d host = true) : foldText n host = some (toLower d) := by
  induction d generalizing n host with
  | nil =>
    rw [equalFoldName, List.isEmpty_iff] at h
    rw [h, foldText]
    rfl
  | cons c d ih =>
    rw [equalFoldName] at h
    cases hrune : foldRune host with
    | none =>
      rw [hrune] at h
      cases h
    | some parts =>
      obtain ⟨a, rest⟩ := parts
      rw [hrune] at h
      simp only [Bool.and_eq_true, beq_iff_eq] at h
      have hlen := foldRune_length hrune
      match n, host with
      | 0, _ :: _ => simp at hn
      | _, [] => simp [foldRune] at hrune
      | n + 1, b :: tail =>
        rw [foldText, hrune]
        simp only [Option.bind_some]
        rw [ih (by simp only [List.length_cons] at hn hlen; omega) h.2, h.1]
        rfl

/-- A lookup that maps the letters of other alphabets that fold to ASCII, and refuses every other. -/
def foldingIdna : Idna where
  toASCII n := foldText n.length n
  ascii _ hn := Or.inr (Or.inl (foldText_of_equalFoldName le_rfl (equalFoldName_self hn)))

theorem foldingIdna_foldsFirst : foldingIdna.FoldsFirst := by
  intro d host hd hequal _
  show foldText host.length host = foldText d.length d
  rw [foldText_of_equalFoldName le_rfl hequal, foldText_of_equalFoldName le_rfl (equalFoldName_self hd)]

/-- A pinned source with a name and a wildcard, and a static name below the wildcard. -/
def exampleListener : CertListener where
  acme := [⟨true, [lit "*.example.org", lit "example.org"]⟩]
  statics := [lit "api.example.org"]

/-- The router of `exampleListener`. -/
def exampleRouter : CertRouter where
  names := { exact := [(lit "example.org", .manager 0), (lit "api.example.org", .static 0)],
             wildcards := [(lit "*.example.org", .manager 0)] }

theorem cert_routing_wildcard :
    buildCertRouter foldingIdna exampleListener = some exampleRouter ∧
    exampleRouter.getCertificate foldingIdna (lit "www.example.org") = some (.manager 0) ∧
    matchDomain [lit "*.example.org", lit "example.org"] (lit "www.example.org") = some (lit "*.example.org") ∧
    exampleRouter.getCertificate foldingIdna (lit "api.example.org") = some (.static 0) := by
  have hbuild : buildCertRouter foldingIdna exampleListener = some exampleRouter := by decide +kernel
  have hdomains : ∀ a ∈ exampleListener.acme, a.pinned = true → ∀ d ∈ a.domains,
      CanonicalDomain foldingIdna d := by
    intro a ha _ d hd
    rw [exampleListener, List.mem_singleton] at ha
    rw [ha] at hd
    simp only [List.mem_cons, List.not_mem_nil, or_false] at hd
    rcases hd with rfl | rfl
    · exact ⟨by decide, by decide +kernel⟩
    · exact ⟨by decide, by decide +kernel⟩
  obtain ⟨hmatch, -, -, -⟩ := cert_routing foldingIdna foldingIdna_foldsFirst exampleListener exampleRouter hbuild
    hdomains (lit "www.example.org") (by decide +kernel) (Or.inl (by decide))
  obtain ⟨-, -, hexact, -⟩ := cert_routing foldingIdna foldingIdna_foldsFirst exampleListener exampleRouter hbuild
    hdomains (lit "api.example.org") (by decide +kernel) (Or.inl (by decide))
  have hselect : exampleRouter.names.select (lit "www.example.org") =
      some (lit "*.example.org", .manager 0) := by decide
  obtain ⟨a, ha, -, hdomain⟩ := hmatch 0 _ hselect
  obtain rfl : _ = a := Option.some.inj ha.1
  exact ⟨hbuild, getCertificate_of_select foldingIdna exampleRouter _ (by decide +kernel) hselect, hdomain,
    hexact (.static 0) (by decide +kernel) (by decide)⟩

end Statute.Tls
