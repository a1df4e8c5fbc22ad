import Statute.Docker.Match

/-!
# The containment test is request-set inclusion

`matcherLE` compares two compiled matchers kind by kind.  `matcherLE_sound` says that what it
accepts is inclusion; here the converse is proved, each refusal by a request that the first matcher
serves and the second does not: the pattern's own spelling, the spelling with one more byte, or the
host with one or two dots.
-/

namespace Statute.Docker

open Statute.Base

/-- The matchers the compilers produce for ASCII hosts: a host wherever a host is compared, rooted
patterns, and a non-empty base before the wildcard of a segment pattern. -/
structure Matcher.WellFormed (m : Matcher) : Prop where
  host : m.hostKind ≠ .any → m.host ≠ [] ∧ isASCII m.host = true
  rooted : m.pathKind ≠ .any → lit "/" <+: m.path
  compiled : m.Compiled

/-- `a` serves no request with an ASCII host and a rooted path that `b` does not. -/
def Matcher.Within (a b : Matcher) : Prop :=
  ∀ host path, isASCII host = true → lit "/" <+: path →
    a.matches host path = true → b.matches host path = true

theorem isASCII_append (s t : Bytes) : isASCII (s ++ t) = (isASCII s && isASCII t) := by
  simp [isASCII]

theorem isASCII_toLower {s : Bytes} (h : isASCII s = true) : isASCII (toLower s) = true := by
  have hbyte : ∀ c : UInt8, c < 128 → lowerByte c < 128 := by
    intro c hc
    unfold lowerByte
    grind
  simp only [isASCII, List.all_eq_true, decide_eq_true_eq] at h ⊢
  intro c hc
  obtain ⟨d, hd, rfl⟩ := List.mem_map.mp hc
  exact hbyte d (h d hd)

/-! ### Every well-formed matcher serves a request -/

namespace Matcher.WellFormed

variable {m : Matcher}

theorem exists_host (h : m.WellFormed) : ∃ host, isASCII host = true ∧ m.matchHost host = true := by
  cases hk : m.hostKind with
  | any => exact ⟨[], rfl, by simp [matchHost, hk]⟩
  | exact =>
    obtain ⟨hne, hascii⟩ := h.host (by simp [hk])
    exact ⟨m.host, hascii, by simp [matchHost, hk, hne]⟩
  | traefik =>
    obtain ⟨_, hascii⟩ := h.host (by simp [hk])
    exact ⟨m.host, hascii, by simp [matchHost, hk, matchTraefikHost]⟩

/-- The base of a segment pattern is rooted as the pattern is. -/
theorem rooted_base (h : m.WellFormed) {base : Bytes} (hk : m.pathKind = .segment)
    (hbase : base ≠ []) (hpath : m.path = base ++ wildcard) : lit "/" <+: base := by
  have hroot := h.rooted (by simp [hk])
  rw [hpath] at hroot
  cases base with
  | nil => exact absurd rfl hbase
  | cons c rest =>
    obtain ⟨t, ht⟩ := hroot
    have hc : ch '/' = c := (List.cons.inj ht).1
    exact ⟨rest, by rw [← hc]; rfl⟩

theorem exists_path (h : m.WellFormed) : ∃ path, lit "/" <+: path ∧ m.matchPath path = true := by
  cases hk : m.pathKind with
  | any => exact ⟨lit "/", List.prefix_rfl, by simp [matchPath, hk]⟩
  | exact => exact ⟨m.path, h.rooted (by simp [hk]), by simp [matchPath, hk]⟩
  | segment =>
    obtain ⟨base, hbase, hpath⟩ := h.compiled hk
    refine ⟨base, h.rooted_base hk hbase hpath, ?_⟩
    simp only [matchPath, hk, hpath, matchSegmentPrefix_append, true_or, or_true]
  | byte => exact ⟨m.path, h.rooted (by simp [hk]), by simp [matchPath, hk]⟩

end Matcher.WellFormed

/-! ### Hosts -/

theorem length_append_dot (s : Bytes) : (s ++ lit ".").length = s.length + 1 :=
  List.length_append

theorem length_append_dots (s : Bytes) : (s ++ lit "..").length = s.length + 2 :=
  List.length_append

theorem toLower_dot : toLower (lit ".") = lit "." := by decide

variable {a b : Matcher}

/-- The host with two dots after it is served by no matcher for that host. -/
theorem matchHost_two_dots (hk : b.hostKind ≠ .any) : b.matchHost (b.host ++ lit "..") = false := by
  rw [Bool.eq_false_iff]
  intro hm
  cases hkind : b.hostKind with
  | any => exact hk hkind
  | exact =>
    simp only [Matcher.matchHost, hkind, Bool.and_eq_true, equalFold_iff] at hm
    have hlen := congrArg List.length hm.2
    rw [toLower_length, toLower_length, length_append_dots] at hlen
    omega
  | traefik =>
    simp only [Matcher.matchHost, hkind, matchTraefikHost_iff] at hm
    have hlen : b.host.length + 2 = b.host.length ∨ b.host.length = b.host.length + 2 + 1 ∨
        b.host.length + 2 = b.host.length + 1 := by
      refine hm.imp (fun h => ?_) (Or.imp (fun h => ?_) fun h => ?_) <;>
      · have := congrArg List.length h
        simpa only [toLower_length, length_append_dot, length_append_dots] using this
    omega

/-- A Traefik host serves itself and itself with a dot, which no single spelling does. -/
theorem traefik_not_exact (hab : ∀ host, isASCII host = true →
    a.matchHost host = true → b.matchHost host = true) (hascii : isASCII a.host = true)
    (ha : a.hostKind = .traefik) (hb : b.hostKind = .exact) : False := by
  have hself := hab a.host hascii (by simp [Matcher.matchHost, ha, matchTraefikHost])
  have hdot := hab (a.host ++ lit ".") (by rw [isASCII_append, hascii]; rfl)
    (by simp only [Matcher.matchHost, ha, matchTraefikHost_iff, toLower_append, toLower_dot,
      or_true])
  simp only [Matcher.matchHost, hb, Bool.and_eq_true, equalFold_iff] at hself hdot
  have hlen := congrArg List.length (hself.2.symm.trans hdot.2)
  rw [toLower_length, toLower_length, length_append_dot] at hlen
  omega

/-- Between Traefik hosts, inclusion leaves only equality and one dot more on a spelling that ends
in none. -/
theorem traefikHostLE_complete {a b : Bytes} (hascii : isASCII a = true)
    (hab : ∀ host, isASCII host = true → matchTraefikHost a host = true →
      matchTraefikHost b host = true) : traefikHostLE a b = true := by
  have hself := hab a hascii ((matchTraefikHost_iff a a).mpr (Or.inl rfl))
  have hdot := hab (a ++ lit ".") (by rw [isASCII_append, hascii]; rfl)
    ((matchTraefikHost_iff _ _).mpr (by rw [toLower_append, toLower_dot]; simp))
  rw [matchTraefikHost_iff] at hself hdot
  rw [toLower_append, toLower_dot] at hdot
  rw [traefikHostLE_iff]
  generalize hA : toLower a = A at hself hdot ⊢
  generalize hB : toLower b = B at hself hdot ⊢
  rcases hself with h | h | h
  · exact Or.inl h
  · refine Or.inr ⟨fun hsuffix => ?_, h⟩
    -- A trailing dot of `a` lets `a` serve the spelling without it, which `b` is two dots away from.
    obtain ⟨C, hC⟩ := hsuffix
    have hlower : toLower C = C := by
      have := congrArg toLower hC
      rw [← hA, toLower_idem, hA, ← hC, toLower_append, toLower_dot] at this
      exact List.append_cancel_right this
    have hCascii : isASCII C = true := by
      have := isASCII_toLower hascii
      rw [hA, ← hC, isASCII_append, Bool.and_eq_true] at this
      exact this.1
    have hshort := hab C hCascii ((matchTraefikHost_iff _ _).mpr (by rw [hA, hlower, hC]; simp))
    rw [matchTraefikHost_iff, hlower, hB, h, ← hC] at hshort
    have hlen : C.length = C.length + 1 + 1 ∨ C.length + 1 + 1 = C.length + 1 ∨
        C.length = C.length + 1 + 1 + 1 := by
      refine hshort.imp (fun h => ?_) (Or.imp (fun h => ?_) fun h => ?_) <;>
      · have := congrArg List.length h
        simpa only [length_append_dot] using this
    omega
  · -- A dot more on `a` than on `b` puts `a` with its dot out of reach of `b`.
    rw [h] at hdot
    have hlen : B.length + 1 + 1 = B.length ∨ B.length = B.length + 1 + 1 + 1 ∨
        B.length + 1 + 1 = B.length + 1 := by
      refine hdot.imp (fun h => ?_) (Or.imp (fun h => ?_) fun h => ?_) <;>
      · have := congrArg List.length h
        simpa only [length_append_dot] using this
    omega

theorem hostMatcherLE_complete (ha : a.WellFormed) (hb : b.WellFormed)
    (hab : ∀ host, isASCII host = true → a.matchHost host = true → b.matchHost host = true) :
    hostMatcherLE a b = true := by
  cases hbk : b.hostKind with
  | any => simp [hostMatcherLE, Matcher.anyHost, hbk]
  | exact =>
    cases hak : a.hostKind with
    | any =>
      have hbad := hab (b.host ++ lit "..")
        (by rw [isASCII_append, (hb.host (by simp [hbk])).2]; rfl) (by simp [Matcher.matchHost, hak])
      rw [matchHost_two_dots (by simp [hbk])] at hbad
      cases hbad
    | exact =>
      obtain ⟨hne, hascii⟩ := ha.host (by simp [hak])
      have hself := hab a.host hascii (by simp [Matcher.matchHost, hak, hne])
      simp only [Matcher.matchHost, hbk, Bool.and_eq_true, equalFold_iff] at hself
      simp [hostMatcherLE, Matcher.anyHost, hbk, hak, hself.2]
    | traefik => exact (traefik_not_exact hab (ha.host (by simp [hak])).2 hak hbk).elim
  | traefik =>
    cases hak : a.hostKind with
    | any =>
      have hbad := hab (b.host ++ lit "..")
        (by rw [isASCII_append, (hb.host (by simp [hbk])).2]; rfl) (by simp [Matcher.matchHost, hak])
      rw [matchHost_two_dots (by simp [hbk])] at hbad
      cases hbad
    | exact =>
      obtain ⟨hne, hascii⟩ := ha.host (by simp [hak])
      have hself := hab a.host hascii (by simp [Matcher.matchHost, hak, hne])
      simp only [Matcher.matchHost, hbk] at hself
      simp [hostMatcherLE, Matcher.anyHost, hbk, hak, hself]
    | traefik =>
      have hle := traefikHostLE_complete (b := b.host) (ha.host (by simp [hak])).2
        fun host hascii hm => by
          have := hab host hascii (by simpa only [Matcher.matchHost, hak] using hm)
          simpa only [Matcher.matchHost, hbk] using this
      simp [hostMatcherLE, Matcher.anyHost, hbk, hak, hle]

/-! ### Paths -/

/-- One letter more than a base leaves the base's segments. -/
theorem not_segment_letter (base : Bytes) :
    ¬ (base ++ lit "x" = base ∨ base ++ lit "/" <+: base ++ lit "x") := by
  rintro (h | h)
  · exact absurd (List.append_right_eq_self.mp h) (by decide)
  · rw [List.prefix_append_right_inj] at h
    exact absurd h (by decide)

theorem anyPath_eq_false (h : b.anyPath = false) :
    b.pathKind ≠ .any ∧ (b.pathKind = .byte → b.path ≠ lit "/") := by
  simp only [Matcher.anyPath, Bool.or_eq_false_iff, beq_eq_false_iff_ne, ne_eq,
    Bool.and_eq_false_iff] at h
  exact ⟨h.1, fun hk => h.2.resolve_left (fun hne => hne hk)⟩

/-- A matcher that compares paths misses some rooted path. -/
theorem exists_path_missed (hb : b.WellFormed) (hany : b.anyPath = false) :
    ∃ path, lit "/" <+: path ∧ b.matchPath path = false := by
  obtain ⟨hkind, hroot⟩ := anyPath_eq_false hany
  have hrooted := hb.rooted hkind
  cases hk : b.pathKind with
  | any => exact absurd hk hkind
  | exact =>
    refine ⟨b.path ++ lit "x", hrooted.trans (List.prefix_append _ _), ?_⟩
    simp [Matcher.matchPath, hk, lit]
  | segment =>
    obtain ⟨base, hbase, hpath⟩ := hb.compiled hk
    refine ⟨base ++ lit "x", (hb.rooted_base hk hbase hpath).trans (List.prefix_append _ _), ?_⟩
    rw [Bool.eq_false_iff]
    simp only [Matcher.matchPath, hk, hpath, ne_eq, matchSegmentPrefix_append, hbase, false_or]
    exact not_segment_letter base
  | byte =>
    refine ⟨lit "/", List.prefix_rfl, ?_⟩
    rw [Bool.eq_false_iff]
    simp only [Matcher.matchPath, hk, ne_eq, hasPrefix_iff]
    intro hpre
    exact hroot hk (hpre.eq_of_length_le hrooted.length_le)

theorem matchPath_of_anyPath (h : a.anyPath = true) {path : Bytes}
    (hroot : lit "/" <+: path) : a.matchPath path = true := by
  simp only [Matcher.anyPath, Bool.or_eq_true, Bool.and_eq_true, beq_iff_eq] at h
  rcases h with hk | ⟨hk, hp⟩
  · simp [Matcher.matchPath, hk]
  · simp [Matcher.matchPath, hk, hp, hroot]

section Paths

variable {a b : Matcher} (ha : a.WellFormed) (hb : b.WellFormed)
  (hab : ∀ path, lit "/" <+: path → a.matchPath path = true → b.matchPath path = true)

include ha hab

theorem exact_complete (hany : a.anyPath = false) (hbk : b.pathKind = .exact) :
    a.pathKind = .exact ∧ a.path = b.path := by
  have hrooted := ha.rooted (anyPath_eq_false hany).1
  cases hak : a.pathKind with
  | any => exact absurd hak (anyPath_eq_false hany).1
  | exact =>
    have hself := hab a.path hrooted (by simp [Matcher.matchPath, hak])
    simp only [Matcher.matchPath, hbk, beq_iff_eq] at hself
    exact ⟨rfl, hself⟩
  | segment =>
    obtain ⟨base, hbase, hpath⟩ := ha.compiled hak
    have hroot := ha.rooted_base hak hbase hpath
    have hself := hab base hroot (by simp [Matcher.matchPath, hak, hpath, matchSegmentPrefix_append])
    have hslash := hab (base ++ lit "/") (hroot.trans (List.prefix_append _ _))
      (by simp [Matcher.matchPath, hak, hpath, matchSegmentPrefix_append])
    simp only [Matcher.matchPath, hbk, beq_iff_eq] at hself hslash
    exact absurd (List.append_right_eq_self.mp (hslash.trans hself.symm)) (by decide)
  | byte =>
    have hself := hab a.path hrooted (by simp [Matcher.matchPath, hak])
    have hmore := hab (a.path ++ lit "x") (hrooted.trans (List.prefix_append _ _))
      (by simp [Matcher.matchPath, hak])
    simp only [Matcher.matchPath, hbk, beq_iff_eq] at hself hmore
    exact absurd (List.append_right_eq_self.mp (hmore.trans hself.symm)) (by decide)

theorem segmentCovers_complete (hany : a.anyPath = false) {base : Bytes} (hbase : base ≠ [])
    (hbk : b.pathKind = .segment) (hbp : b.path = base ++ wildcard) :
    segmentCovers a b.path = true := by
  have hserve : ∀ path, lit "/" <+: path → a.matchPath path = true →
      path = base ∨ base ++ lit "/" <+: path := by
    intro path hroot hm
    have := hab path hroot hm
    simp only [Matcher.matchPath, hbk, hbp, matchSegmentPrefix_append] at this
    exact this.resolve_left hbase
  have hrooted := ha.rooted (anyPath_eq_false hany).1
  cases hak : a.pathKind with
  | any => exact absurd hak (anyPath_eq_false hany).1
  | exact =>
    have hself := hserve a.path hrooted (by simp [Matcher.matchPath, hak])
    simp only [segmentCovers, hbp, cutSuffix_append, if_neg hbase, hak, matchSegmentPrefix_append]
    exact Or.inr hself
  | segment =>
    obtain ⟨abase, habase, hpath⟩ := ha.compiled hak
    have hself := hserve abase (ha.rooted_base hak habase hpath)
      (by simp [Matcher.matchPath, hak, hpath, matchSegmentPrefix_append])
    simp only [segmentCovers, hbp, hpath, cutSuffix_append, if_neg hbase, hak, Bool.or_eq_true,
      beq_iff_eq, hasPrefix_iff]
    exact hself
  | byte =>
    have hself := hserve a.path hrooted (by simp [Matcher.matchPath, hak])
    have hmore := hserve (a.path ++ lit "x") (hrooted.trans (List.prefix_append _ _))
      (by simp [Matcher.matchPath, hak])
    simp only [segmentCovers, hbp, cutSuffix_append, if_neg hbase, hak, hasPrefix_iff]
    refine hself.resolve_left fun heq => ?_
    rw [heq] at hmore
    exact not_segment_letter base hmore

theorem bytePrefixCovers_complete (hany : a.anyPath = false) (hbk : b.pathKind = .byte) :
    bytePrefixCovers a b.path = true := by
  have hserve : ∀ path, lit "/" <+: path → a.matchPath path = true → b.path <+: path := by
    intro path hroot hm
    have := hab path hroot hm
    simpa only [Matcher.matchPath, hbk, hasPrefix_iff] using this
  have hrooted := ha.rooted (anyPath_eq_false hany).1
  rw [bytePrefixCovers]
  split
  · rfl
  cases hak : a.pathKind with
  | any => exact absurd hak (anyPath_eq_false hany).1
  | exact =>
    exact (hasPrefix_iff _ _).mpr (hserve a.path hrooted (by simp [Matcher.matchPath, hak]))
  | segment =>
    obtain ⟨abase, habase, hpath⟩ := ha.compiled hak
    have hself := hserve abase (ha.rooted_base hak habase hpath)
      (by simp [Matcher.matchPath, hak, hpath, matchSegmentPrefix_append])
    simp only [hpath, cutSuffix_append, Bool.true_and, Bool.and_eq_true, bne_iff_ne, hasPrefix_iff]
    exact ⟨habase, hself⟩
  | byte =>
    exact (hasPrefix_iff _ _).mpr (hserve a.path hrooted (by simp [Matcher.matchPath, hak]))

include hb

theorem pathMatcherLE_complete : pathMatcherLE a b = true := by
  cases hbany : b.anyPath with
  | true => simp [pathMatcherLE, hbany]
  | false =>
    cases haany : a.anyPath with
    | true =>
      obtain ⟨path, hroot, hmiss⟩ := exists_path_missed hb hbany
      have hhit := hab path hroot (matchPath_of_anyPath haany hroot)
      rw [hmiss] at hhit
      cases hhit
    | false =>
      simp only [pathMatcherLE, hbany, haany, Bool.false_eq_true, if_false]
      cases hbk : b.pathKind with
      | any => exact absurd hbk (anyPath_eq_false hbany).1
      | exact => simpa using exact_complete ha hab haany hbk
      | segment =>
        obtain ⟨base, hbase, hbp⟩ := hb.compiled hbk
        exact segmentCovers_complete ha hab haany hbase hbk hbp
      | byte => exact bytePrefixCovers_complete ha hab haany hbk

end Paths

/-! ### The equivalence -/

/-- Inclusion of the request sets is inclusion of the hosts and of the paths: neither side of `a`
is empty. -/
theorem Matcher.Within.split (ha : a.WellFormed) (h : a.Within b) :
    (∀ host, isASCII host = true → a.matchHost host = true → b.matchHost host = true) ∧
      ∀ path, lit "/" <+: path → a.matchPath path = true → b.matchPath path = true := by
  obtain ⟨host, hascii, hhost⟩ := ha.exists_host
  obtain ⟨path, hroot, hpath⟩ := ha.exists_path
  refine ⟨fun host' hascii' hm => ?_, fun path' hroot' hm => ?_⟩
  · have := h host' path hascii' hroot (by rw [Matcher.matches, hm, hpath]; rfl)
    rw [Matcher.matches, Bool.and_eq_true] at this
    exact this.1
  · have := h host path' hascii hroot' (by rw [Matcher.matches, hhost, hm]; rfl)
    rw [Matcher.matches, Bool.and_eq_true] at this
    exact this.2

theorem matcherLE_complete (ha : a.WellFormed) (hb : b.WellFormed)
    (h : a.Within b) : matcherLE a b = true := by
  obtain ⟨hhost, hpath⟩ := h.split ha
  rw [matcherLE, hostMatcherLE_complete ha hb hhost, pathMatcherLE_complete ha hb hpath]
  rfl

/-- **The containment test is request-set inclusion.**  For matchers of the compilers' forms it
accepts exactly when every request with an ASCII host and a rooted path that the first serves is
served by the second. -/
theorem matcherLE_iff_within (a b : Matcher) (ha : a.WellFormed) (hb : b.WellFormed) :
    matcherLE a b = true ↔
      ∀ host path, isASCII host = true → lit "/" <+: path →
        a.matches host path = true → b.matches host path = true :=
  ⟨fun hle _ _ _ hroot hm => matcherLE_sound hroot hle hm, matcherLE_complete ha hb⟩

/-- `Host("x")` under `/api/` lies in `Host("x.")` under the segment `/api`, not the other way. -/
theorem matcherLE_iff_within_dot :
    let a : Matcher :=
      { host := lit "x", hostKind := .traefik, path := lit "/api/", pathKind := .byte }
    let b : Matcher :=
      { host := lit "x.", hostKind := .traefik, path := lit "/api/*", pathKind := .segment }
    (∀ host path, isASCII host = true → lit "/" <+: path →
        a.matches host path = true → b.matches host path = true) ∧
      ¬ ∀ host path, isASCII host = true → lit "/" <+: path →
        b.matches host path = true → a.matches host path = true := by
  intro a b
  have ha : a.WellFormed := ⟨by decide, by decide, fun h => absurd h (by decide)⟩
  have hb : b.WellFormed := ⟨by decide, by decide, fun _ => ⟨lit "/api", by decide, by decide⟩⟩
  exact ⟨(matcherLE_iff_within a b ha hb).mp (by decide),
    fun h => absurd ((matcherLE_iff_within b a hb ha).mpr h) (by decide)⟩

end Statute.Docker
