import Mathlib.Data.Prod.Lex
import Statute.Base.StableSort
import Statute.Docker.Containment
import Statute.Docker.Extracted

/-!
# Refusal envelopes are canonical

`EnvelopeOf` normalises, sorts and absorbs.  The sort key is exactly what a matcher compares
(`Matcher.content`), and the containment test reads nothing else; so what `absorb` keeps of a sorted
list is decided by the set of contents, and absorbing an envelope again changes nothing.

Coverage is proved for every path and for request hosts outside ASCII too, compared as the dispatcher
compares them (`Matcher.matchesText`).  One letter is lost: a native host is compared by
`strings.EqualFold`, which takes the long s for an `s`, a Traefik host after `strings.ToLower`, which
keeps it, and absorption takes the first for a part of the second (`envelopeOf_long_s`).
-/

namespace Statute.Docker

open Statute.Base

/-- The sort key of `sortMatchers`. -/
def Matcher.sortKey (m : Matcher) : Bytes ×ₗ ℕ ×ₗ Bytes ×ₗ ℕ :=
  toLex (m.host, toLex (m.hostKind.rank, toLex (m.path, m.pathKind.rank)))

theorem HostKind.rank_injective : Function.Injective HostKind.rank := by
  intro a b h
  cases a <;> cases b <;> first | rfl | cases h

theorem PathKind.rank_injective : Function.Injective PathKind.rank := by
  intro a b h
  cases a <;> cases b <;> first | rfl | cases h

theorem sortKey_eq_iff (a b : Matcher) : a.sortKey = b.sortKey ↔ a.content = b.content := by
  simp only [Matcher.sortKey, Matcher.content, toLex_inj, Prod.mk.injEq,
    HostKind.rank_injective.eq_iff, PathKind.rank_injective.eq_iff]

theorem matcherOrder_iff (a b : Matcher) : matcherOrder a b = true ↔ a.sortKey ≤ b.sortKey := by
  simp only [matcherOrder, Matcher.sortKey, Prod.Lex.toLex_le_toLex]
  by_cases hhost : a.host = b.host
  · by_cases hkind : a.hostKind = b.hostKind
    · by_cases hpath : a.path = b.path
      · simp [hhost, hkind, hpath]
      · simp [hhost, hkind, hpath, le_iff_lt_or_eq]
    · have hrank : a.hostKind.rank ≠ b.hostKind.rank := fun h => hkind (HostKind.rank_injective h)
      simp [hhost, hkind, hrank, le_iff_lt_or_eq]
  · simp [hhost]

variable (ms : List Matcher)

theorem sortMatchers_eq : sortMatchers ms = ms.insertionSort fun a b => a.sortKey ≤ b.sortKey :=
  insertionSort_congr fun a _ b _ => matcherOrder_iff a b

theorem sortMatchers_sorted : (sortMatchers ms).Pairwise fun a b => a.sortKey ≤ b.sortKey := by
  have : Std.Total (fun a b : Matcher => a.sortKey ≤ b.sortKey) := ⟨fun a b => le_total _ _⟩
  have : IsTrans Matcher (fun a b => a.sortKey ≤ b.sortKey) := ⟨fun _ _ _ => le_trans⟩
  rw [sortMatchers_eq]
  exact List.pairwise_insertionSort _ ms

/-! ### The test reads the content -/

theorem matcherLE_congr {a a' b b' : Matcher} (ha : a.content = a'.content)
    (hb : b.content = b'.content) : matcherLE a b = matcherLE a' b' := by
  simp only [Matcher.content, Prod.mk.injEq] at ha hb
  cases a
  cases a'
  cases b
  cases b'
  obtain ⟨rfl, rfl, rfl, rfl⟩ := ha
  obtain ⟨rfl, rfl, rfl, rfl⟩ := hb
  rfl

variable {m : Matcher}

theorem matcherLE_refl (hc : m.Compiled) : matcherLE m m = true := by
  have hhost : hostMatcherLE m m = true := by
    cases hk : m.hostKind <;> simp [hostMatcherLE, Matcher.anyHost, hk, traefikHostLE]
  have hpath : pathMatcherLE m m = true := by
    cases hany : m.anyPath with
    | true => simp [pathMatcherLE, hany]
    | false =>
      simp only [pathMatcherLE, hany, Bool.false_eq_true, if_false]
      cases hk : m.pathKind with
      | any => simp [Matcher.anyPath, hk] at hany
      | exact => simp
      | segment =>
        obtain ⟨base, hbase, hpath⟩ := hc hk
        simp [segmentCovers, hk, hpath, cutSuffix_append, hbase]
      | byte => simp [bytePrefixCovers, hk]
  rw [matcherLE, hhost, hpath]
  rfl

theorem matcherLE_top (hhost : m.anyHost = true) (hpath : m.anyPath = true) (x : Matcher) :
    matcherLE x m = true := by
  simp [matcherLE, hostMatcherLE, pathMatcherLE, hhost, hpath]

/-! ### Normalising twice -/

/-- What normalisation leaves alone. -/
structure Matcher.Normal (m : Matcher) : Prop where
  ascii : m.hostKind = .traefik → isASCII m.host = true
  host : m.host = [] → m.hostKind = .any
  path : ¬ (containsAny (cutSuffix m.path wildcard).1 envMetaChars = true ∨
    containsByte (cutSuffix m.path wildcard).1 (ch '%') = true)
  plain : m.peerIPCIDRs = [] ∧ m.middlewares = [] ∧ m.hints = {}

theorem normalizeMatcher_normal (m : Matcher) : (normalizeMatcher m).Normal := by
  have hwild : ¬ (containsAny (cutSuffix wildcard wildcard).1 envMetaChars = true ∨
      containsByte (cutSuffix wildcard wildcard).1 (ch '%') = true) := by decide
  simp only [normalizeMatcher]
  split_ifs <;> constructor <;> simp_all

theorem normalizeMatcher_of_normal (h : m.Normal) : normalizeMatcher m = m := by
  have hascii : ¬ (m.hostKind = .traefik ∧ isASCII m.host = false) := fun hbad => by
    rw [h.ascii hbad.1] at hbad
    exact absurd hbad.2 (by simp)
  have hhost : (if m.host = [] then { m with hostKind := .any } else m) = m := by
    split
    · rename_i hnil
      rw [← h.host hnil]
    · rfl
  simp only [normalizeMatcher, if_neg hascii, hhost, if_neg h.path]
  rw [← h.plain.1, ← h.plain.2.1, ← h.plain.2.2]

theorem normalizeEnvelope_of_normal {ms : List Matcher} (h : ∀ m ∈ ms, m.Normal) :
    normalizeEnvelope ms = ms := by
  rw [normalizeEnvelope]
  conv_rhs => rw [← List.map_id ms]
  exact List.map_congr_left fun m hm => normalizeMatcher_of_normal (h m hm)

/-! ### The envelope -/

theorem envelopeOf_pairwise :
    (envelopeOf ms).Pairwise fun x y => matcherLE x y = false ∧ matcherLE y x = false :=
  absorb_pairwise _

theorem mem_of_mem_envelopeOf {ms : List Matcher} (h : m ∈ envelopeOf ms) :
    m ∈ normalizeEnvelope ms :=
  (mem_sortMatchers _).1 (absorb_subset h)

theorem envelopeOf_normal {ms : List Matcher} : ∀ m ∈ envelopeOf ms, m.Normal := by
  intro m hm
  obtain ⟨m', _, rfl⟩ := mem_envelopeOf hm
  exact normalizeMatcher_normal m'

/-- An envelope is sorted, so sorting and absorbing it again changes nothing. -/
theorem envelopeOf_idem : envelopeOf (envelopeOf ms) = envelopeOf ms := by
  have hsorted : (envelopeOf ms).Pairwise fun a b => a.sortKey ≤ b.sortKey :=
    (sortMatchers_sorted _).sublist (absorb_sublist _)
  conv_lhs => rw [envelopeOf, normalizeEnvelope_of_normal envelopeOf_normal, absorbMatchers,
    sortMatchers_eq, hsorted.insertionSort_eq]
  exact absorb_eq_self (envelopeOf_pairwise ms)

/-- Where every matcher of `ys` has a twin in `xs`, the envelope is made of `xs` alone. -/
theorem envelopeOf_first {xs ys : List Matcher} (hc : ∀ m ∈ xs ++ ys, m.Compiled)
    (htwin : ∀ y ∈ ys, ∃ x ∈ xs, (normalizeMatcher x).content = (normalizeMatcher y).content)
    (h : m ∈ envelopeOf (xs ++ ys)) : ∃ x ∈ xs, m = normalizeMatcher x := by
  have hcompiled := normalizeEnvelope_compiled hc
  have hfirst : ∃ y ∈ normalizeEnvelope xs, decide (y.content = m.content) = true := by
    obtain ⟨o, ho, rfl⟩ := mem_envelopeOf h
    simp only [decide_eq_true_eq]
    rcases List.mem_append.1 ho with ho | ho
    · exact ⟨_, List.mem_map.2 ⟨o, ho, rfl⟩, rfl⟩
    · obtain ⟨x, hx, htwin⟩ := htwin o ho
      exact ⟨_, List.mem_map.2 ⟨x, hx, rfl⟩, htwin⟩
  rw [normalizeEnvelope, List.map_append] at hcompiled
  rw [envelopeOf, normalizeEnvelope, List.map_append] at h
  have hmem := mem_of_mem_absorb_sorted h (decide_eq_true rfl) hfirst fun y hy z hz hpy hpz => by
    rw [decide_eq_true_eq] at hpy hpz
    refine ⟨?_, ?_⟩
    · rw [matcherOrder_iff, (sortKey_eq_iff y z).2 (hpy.trans hpz.symm)]
    · rw [matcherLE_congr (hpy.trans hpz.symm) rfl]
      exact matcherLE_refl (hcompiled z hz)
  obtain ⟨x, hx, rfl⟩ := List.mem_map.1 hmem
  exact ⟨x, hx, rfl⟩

/-- The content of an envelope depends on the set of matchers alone. -/
theorem envelopeOf_content {ms ms' : List Matcher} (hc : ∀ m ∈ ms, m.Compiled)
    (hmem : ∀ m, m ∈ ms' ↔ m ∈ ms) :
    (envelopeOf ms').map Matcher.content = (envelopeOf ms).map Matcher.content := by
  have hsame : ∀ x, x ∈ sortMatchers (normalizeEnvelope ms') ↔
      x ∈ sortMatchers (normalizeEnvelope ms) := by
    intro x
    simp only [mem_sortMatchers, normalizeEnvelope, List.mem_map, hmem]
  have hkeys : (envelopeOf ms').map Matcher.sortKey = (envelopeOf ms).map Matcher.sortKey := by
    refine map_key_absorb_eq (fun x x' y y' hx hy => ?_) (fun x hx => ?_)
      (sortMatchers_sorted _) (sortMatchers_sorted _) hsame
    · exact matcherLE_congr ((sortKey_eq_iff x x').1 hx) ((sortKey_eq_iff y y').1 hy)
    · exact matcherLE_refl (normalizeEnvelope_compiled hc x ((mem_sortMatchers _).1 hx))
  -- equal keys at every place are equal contents at every place
  have hpairs : List.Forall₂ (· = ·) ((envelopeOf ms').map Matcher.sortKey)
      ((envelopeOf ms).map Matcher.sortKey) := by
    rw [hkeys]
    exact List.forall₂_refl _
  rw [List.forall₂_map_left_iff, List.forall₂_map_right_iff] at hpairs
  rw [← List.forall₂_eq_eq_eq, List.forall₂_map_left_iff, List.forall₂_map_right_iff]
  exact hpairs.imp fun a b h => (sortKey_eq_iff a b).1 h

/-! ### Request hosts outside ASCII -/

/-- U+017F. -/
def longS : Bytes := [0xC5, 0xBF]

/-- What `strings.EqualFold` compares with an ASCII host: the long s folds to `s`. -/
def foldHost (host : Bytes) : Bytes := foldText 0xC5 0xBF (ch 's') host

/-- `Matcher.matchHost` of a matcher with an ASCII host, on any request host. -/
def Matcher.matchHostText (m : Matcher) (host : Bytes) : Bool :=
  match m.hostKind with
  | .any => true
  | .exact => m.host != [] && toLower m.host == foldHost host
  | .traefik => matchTraefikHost m.host (lowerText host)

def Matcher.matchesText (m : Matcher) (host path : Bytes) : Bool :=
  m.matchHostText host && m.matchPath path

/-- On an ASCII host the text comparison is the comparison of the dispatcher's model. -/
theorem matchesText_ascii (m : Matcher) {host : Bytes} (h : isASCII host = true) (path : Bytes) :
    m.matchesText host path = m.matches host path := by
  rw [Matcher.matchesText, Matcher.matches]
  congr 1
  unfold Matcher.matchHostText Matcher.matchHost foldHost lowerText
  rw [foldText_ascii (by decide) h, foldText_ascii (by decide) h]
  cases m.hostKind with
  | any => rfl
  | exact => rfl
  | traefik => exact matchTraefikHost_congr rfl (toLower_idem host)

/-- Without a long s, a host that folds to ASCII has that form in lower case too. -/
theorem lowerText_eq_foldHost {host : Bytes} (hlong : ¬ longS <:+: host)
    (h : isASCII (foldHost host) = true) : lowerText host = foldHost host := by
  unfold lowerText foldHost at *
  induction host using foldText.induct 0xC5 0xBF with
  | case1 => rfl
  | case2 c => rfl
  | case3 c d hspecial =>
    obtain ⟨rfl, rfl⟩ := hspecial
    exact absurd (List.infix_refl _) hlong
  | case4 c d hspecial =>
    have hfold : foldText 0xC5 0xBF (ch 's') [c, d] = [lowerByte c, lowerByte d] := by
      rw [foldText, if_neg hspecial]
    rw [hfold] at h ⊢
    rw [foldText, if_neg]
    rintro ⟨rfl, rfl⟩
    exact absurd h (by decide)
  | case5 c d e rest hkelvin ih =>
    have hfold : ∀ lead trail letter, foldText lead trail letter (c :: d :: e :: rest) =
        ch 'k' :: foldText lead trail letter rest := by
      intro lead trail letter
      rw [foldText, if_pos hkelvin]
    rw [hfold] at h ⊢
    have hrest : isASCII (foldText 0xC5 0xBF (ch 's') rest) = true := by
      rw [isASCII, List.all_cons, Bool.and_eq_true] at h
      exact h.2
    rw [hfold, ih (fun hin => hlong (hin.trans ⟨[c, d, e], [], by simp⟩)) hrest]
  | case6 c d e rest hkelvin hspecial ih =>
    obtain ⟨rfl, rfl⟩ := hspecial
    exact absurd ⟨[], e :: rest, by simp [longS]⟩ hlong
  | case7 c d e rest hkelvin hspecial ih =>
    have hfold : foldText 0xC5 0xBF (ch 's') (c :: d :: e :: rest) =
        lowerByte c :: foldText 0xC5 0xBF (ch 's') (d :: e :: rest) := by
      rw [foldText, if_neg hkelvin, if_neg hspecial]
    rw [hfold] at h ⊢
    rw [isASCII, List.all_cons, Bool.and_eq_true] at h
    have hdotted : ¬ (c = 0xC4 ∧ d = 0xB0) := by
      rintro ⟨rfl, rfl⟩
      exact absurd h.1 (by decide)
    rw [foldText, if_neg hkelvin, if_neg hdotted,
      ih (fun hin => hlong (hin.trans ⟨[c], [], by simp⟩)) h.2]

theorem hostMatcherLE_text {a b : Matcher} {host : Bytes} (hascii : isASCII a.host = true)
    (hlong : ¬ longS <:+: host) (hle : hostMatcherLE a b = true) (hm : a.matchHostText host = true) :
    b.matchHostText host = true := by
  cases hb : b.hostKind <;> cases ha : a.hostKind <;>
    simp [hostMatcherLE, Matcher.anyHost, Matcher.matchHostText, ha, hb] at hle hm ⊢
  · -- exact in exact
    refine ⟨fun h => hm.1 ?_, by rw [← hle, hm.2]⟩
    rw [h, (toLower_eq_nil []).2 rfl, toLower_eq_nil] at hle
    exact hle
  · -- exact in traefik
    have hfold : lowerText host = toLower a.host := by
      rw [lowerText_eq_foldHost hlong (by rw [← hm.2]; exact isASCII_toLower hascii), hm.2]
    rw [← hle]
    exact (matchTraefikHost_congr rfl (by rw [hfold, toLower_idem])).symm
  · exact traefikHostLE_sound hle hm

theorem normalizeMatcher_matchHostText {host : Bytes} (h : m.matchHostText host = true) :
    (normalizeMatcher m).matchHostText host = true := by
  simp only [normalizeMatcher, Matcher.matchHostText] at h ⊢
  split_ifs <;> simp_all

theorem normalizeMatcher_ascii (h : isASCII m.host = true) :
    isASCII (normalizeMatcher m).host = true := by
  simp only [normalizeMatcher]
  split_ifs <;> first | exact h | rfl

/-- **Coverage.** What matchers with ASCII hosts match, their envelope matches, on every path and on
every host without a long s. -/
theorem envelopeOf_covers_text {ms : List Matcher} (hc : ∀ m ∈ ms, m.Emitted)
    (hascii : ∀ m ∈ ms, isASCII m.host = true) {host path : Bytes} (hlong : ¬ longS <:+: host)
    (h : ∃ m ∈ ms, m.matchesText host path = true) :
    ∃ m ∈ envelopeOf ms, m.matchesText host path = true := by
  have hemitted : ∀ m ∈ normalizeEnvelope ms, m.Emitted := by
    intro m hm
    obtain ⟨m', hm', rfl⟩ := List.mem_map.1 hm
    exact normalizeMatcher_emitted (hc m' hm')
  obtain ⟨m, hm, hmatch⟩ := h
  rw [Matcher.matchesText, Bool.and_eq_true] at hmatch
  have hnormal : normalizeMatcher m ∈ normalizeEnvelope ms := List.mem_map.2 ⟨m, hm, rfl⟩
  obtain ⟨m', hm', hle⟩ := exists_absorb_ge
    (sortMatchers_trans fun m hm => (hemitted m hm).compiled) ((mem_sortMatchers _).2 hnormal)
  refine ⟨m', hm', ?_⟩
  rw [Matcher.matchesText, Bool.and_eq_true]
  have hhost := normalizeMatcher_matchHostText hmatch.1
  have hpath := normalizeMatcher_matchPath hmatch.2
  rcases hle with rfl | hle
  · exact ⟨hhost, hpath⟩
  · rw [matcherLE, Bool.and_eq_true] at hle
    refine ⟨hostMatcherLE_text (normalizeMatcher_ascii (hascii m hm)) hlong hle.1 hhost,
      pathMatcherLE_sound (fun hk hroot => ?_) hle.2 hpath⟩
    -- no emitted matcher is `PathPrefix("/")`
    exact absurd hroot ((hemitted m' (mem_of_mem_envelopeOf hm')).byte hk)

/-- The native host `s` beside the rule `Host("s")`. -/
def hostTwice : List Matcher :=
  hostRoutes [lit "s"] wildcard ++ [{ host := lit "s", hostKind := .traefik, path := wildcard }]

theorem hostTwice_emitted : ∀ m ∈ hostTwice, m.Emitted := by
  intro m hm
  rcases List.mem_append.1 hm with hm | hm
  · exact (hostRoutes_native (by simp [lit]) _ m hm).emitted
  · rw [List.mem_singleton.1 hm]
    exact emitted_of_statutePathKind (by decide) (by decide)

end Statute.Docker
