import Statute.Docker.Containment
import Statute.Docker.Extracted
import Statute.Provider.Dispatch

/-!
# The specificity order refines containment

Routes without priorities are kept in the order of `dynamicRoutePrecedes`, and the first that serves
a request is selected.  A matcher whose requests are a strict part of another's comes first.  This
rests on what the compilers emit: the specificity counts the slash of `PathPrefix("/")` although every
rooted path has it, and no compiler emits that matcher (`Emitted.byte`).

* `routable_of_extracted`: the matchers of extracted services are those the order is about;
* `hostPathKey_of_strictlyWithin`: the order against strict inclusion of request sets;
* `specificity_refines_containment`: the same for what is selected after sorting.
-/

namespace Statute.Provider

open Statute.Base Statute.Docker

/-- The matchers of discovered routes: as the compilers emit them, with an ASCII host in lower case
and a rooted pattern. -/
structure Routable (m : Matcher) : Prop extends m.WellFormed where
  emitted : m.Emitted
  lower : toLower m.host = m.host

variable {a b m : Matcher}

theorem routable_of_emitted (hemitted : m.Emitted) (hascii : isASCII m.host = true)
    (hlower : toLower m.host = m.host) (hrooted : m.pathKind ≠ .any → lit "/" <+: m.path) :
    Routable m :=
  ⟨⟨fun hk => ⟨fun hnil => hk (hemitted.anyHost.mpr hnil), hascii⟩, hrooted, hemitted.compiled⟩,
    hemitted, hlower⟩

/-- The matchers of an extracted service are routable once their hosts are ASCII and in lower case and
their patterns rooted. -/
theorem routable_of_extracted {c : Container} {opts : ExtractOptions} {svc : Service}
    (hsvc : svc ∈ (extractWithRejections c opts).services) {m : Matcher} (hm : m ∈ svc.routes)
    (hascii : isASCII m.host = true) (hlower : toLower m.host = m.host)
    (hrooted : m.pathKind ≠ .any → lit "/" <+: m.path) : Routable m :=
  routable_of_emitted ((extractWithRejections_formed c opts).routes svc hsvc m hm).emitted hascii
    hlower hrooted

/-- The requests of `a` are a strict part of the requests of `b`. -/
def StrictlyWithin (a b : Matcher) : Prop := a.Within b ∧ ¬ b.Within a

/-- The dimensions of specificity a path pattern contributes. -/
def pathKey (m : Matcher) : List ℕ :=
  let p := dynamicPatternSpecificity m
  [if p.1 then 1 else 0, p.2.1, p.2.2]

theorem specKey_eq (m : Matcher) :
    specKey m = (if m.host != [] then 1 else 0) :: (pathKey m ++ [dynamicHostSpecificity m]) := rfl

/-! ### Paths -/

namespace Routable

variable {m : Matcher}

theorem pathKey_any (h : Routable m) (hk : m.pathKind = .any) : pathKey m = [0, 0, 1] := by
  have hcut : (cutSuffix m.path wildcard).1 = [] := by
    rcases h.emitted.everyPath hk with hp | hp <;> rw [hp] <;> decide
  simp [pathKey, dynamicPatternSpecificity, hk, hcut]

theorem pathKey_exact (hk : m.pathKind = .exact) : pathKey m = [1, m.path.length, 2] := by
  simp [pathKey, dynamicPatternSpecificity, hk]

theorem pathKey_byte (hk : m.pathKind = .byte) : pathKey m = [0, m.path.length, 0] := by
  simp [pathKey, dynamicPatternSpecificity, hk]

theorem pathKey_segment {base : Bytes} (hk : m.pathKind = .segment)
    (hpath : m.path = base ++ wildcard) : pathKey m = [0, base.length, 1] := by
  simp [pathKey, dynamicPatternSpecificity, hk, hpath, cutSuffix_append]

theorem path_length_pos (h : Routable m) (hk : m.pathKind ≠ .any) : 0 < m.path.length :=
  (h.rooted hk).length_le

end Routable

theorem key_lt_iff (e l k e' l' k' : ℕ) :
    [e, l, k] < [e', l', k'] ↔ e < e' ∨ e = e' ∧ (l < l' ∨ l = l' ∧ k < k') := by
  simp [List.cons_lt_cons_iff]

theorem pathMatcherLE_of_eq (ha : a.WellFormed) (hb : b.WellFormed)
    (hk : a.pathKind = b.pathKind) (hp : a.path = b.path) : pathMatcherLE b a = true := by
  refine pathMatcherLE_complete hb ha fun path _ hm => ?_
  rw [Matcher.matchPath, ← hk, ← hp] at hm
  exact hm

section PathOrder

variable {a b : Matcher} (ha : Routable a) (hb : Routable b)

include ha hb

/-- Under a pattern for every path, everything but such a pattern is the more specific. -/
theorem pathKey_under_any (hbk : b.pathKind = .any) :
    pathKey b < pathKey a ∨ (pathKey a = pathKey b ∧ pathMatcherLE b a = true) := by
  rw [hb.pathKey_any hbk]
  cases hak : a.pathKind with
  | any =>
    refine Or.inr ⟨ha.pathKey_any hak, ?_⟩
    simp [pathMatcherLE, Matcher.anyPath, hak]
  | exact =>
    left
    rw [Routable.pathKey_exact hak, key_lt_iff]
    omega
  | segment =>
    obtain ⟨base, hbase, hpath⟩ := ha.compiled hak
    have hlen := List.length_pos_of_ne_nil hbase
    left
    rw [Routable.pathKey_segment hak hpath, key_lt_iff]
    omega
  | byte =>
    have hlen := ha.path_length_pos (by simp [hak])
    left
    rw [Routable.pathKey_byte hak, key_lt_iff]
    omega

/-- Under a segment pattern a path pattern is longer, exact, or the same pattern. -/
theorem pathKey_under_segment {base : Bytes} (hbase : base ≠ []) (hbk : b.pathKind = .segment)
    (hbp : b.path = base ++ wildcard) (hle : segmentCovers a b.path = true) :
    pathKey b < pathKey a ∨ (pathKey a = pathKey b ∧ pathMatcherLE b a = true) := by
  rw [hbp] at hle
  simp only [segmentCovers, cutSuffix_append, if_neg hbase] at hle
  rw [Routable.pathKey_segment hbk hbp]
  have hslash : ∀ p : Bytes, base ++ lit "/" <+: p → base.length < p.length := fun p hpre => by
    have hlen := hpre.length_le
    rw [List.length_append] at hlen
    exact hlen
  cases hak : a.pathKind with
  | any => simp [hak] at hle
  | exact =>
    left
    rw [Routable.pathKey_exact hak, key_lt_iff]
    omega
  | segment =>
    obtain ⟨abase, _, hpath⟩ := ha.compiled hak
    simp only [hak, hpath, cutSuffix_append, Bool.or_eq_true, beq_iff_eq, hasPrefix_iff] at hle
    rw [Routable.pathKey_segment hak hpath]
    rcases hle with heq | hpre
    · right
      rw [heq] at hpath ⊢
      refine ⟨rfl, pathMatcherLE_of_eq ha.toWellFormed hb.toWellFormed ?_ ?_⟩
      · rw [hak, hbk]
      · rw [hpath, hbp]
    · left
      have := hslash abase hpre
      rw [key_lt_iff]
      omega
  | byte =>
    simp only [hak, hasPrefix_iff] at hle
    have := hslash a.path hle
    left
    rw [Routable.pathKey_byte hak, key_lt_iff]
    omega

/-- Under a byte prefix a path pattern is longer, exact, a segment pattern, or the same prefix. -/
theorem pathKey_under_byte (hbk : b.pathKind = .byte) (hak : a.pathKind ≠ .any)
    (hle : ∀ base, a.pathKind = .segment → a.path = base ++ wildcard → b.path <+: base)
    (hle' : a.pathKind = .byte → b.path <+: a.path) :
    pathKey b < pathKey a ∨ (pathKey a = pathKey b ∧ pathMatcherLE b a = true) := by
  rw [Routable.pathKey_byte hbk]
  cases hk : a.pathKind with
  | any => exact absurd hk hak
  | exact =>
    left
    rw [Routable.pathKey_exact hk, key_lt_iff]
    omega
  | segment =>
    obtain ⟨base, _, hpath⟩ := ha.compiled hk
    have hlen := (hle base hk hpath).length_le
    left
    rw [Routable.pathKey_segment hk hpath, key_lt_iff]
    omega
  | byte =>
    have hpre := hle' hk
    rw [Routable.pathKey_byte hk]
    by_cases heq : a.path = b.path
    · right
      rw [heq]
      exact ⟨rfl, pathMatcherLE_of_eq ha.toWellFormed hb.toWellFormed (by rw [hk, hbk]) heq⟩
    · left
      have hlen : b.path.length < a.path.length := lt_of_le_of_ne hpre.length_le
        fun hl => heq (hpre.eq_of_length hl).symm
      rw [key_lt_iff]
      omega

/-- **Path inclusion in the specificity.**  The included pattern is the more specific, or includes
the other as well at the same specificity. -/
theorem pathMatcherLE_key (hle : pathMatcherLE a b = true) :
    pathKey b < pathKey a ∨ (pathKey a = pathKey b ∧ pathMatcherLE b a = true) := by
  cases hbk : b.pathKind with
  | any => exact pathKey_under_any ha hb hbk
  | exact =>
    have hbany : b.anyPath = false := by simp [Matcher.anyPath, hbk]
    cases haany : a.anyPath with
    | true => simp [pathMatcherLE, hbany, haany] at hle
    | false =>
      simp only [pathMatcherLE, hbany, haany, hbk, Bool.false_eq_true, if_false, Bool.and_eq_true,
        beq_iff_eq] at hle
      refine Or.inr ⟨?_, ?_⟩
      · rw [Routable.pathKey_exact hle.1, Routable.pathKey_exact hbk, hle.2]
      · exact pathMatcherLE_of_eq ha.toWellFormed hb.toWellFormed (by rw [hle.1, hbk]) hle.2
  | segment =>
    have hbany : b.anyPath = false := by simp [Matcher.anyPath, hbk]
    obtain ⟨base, hbase, hbp⟩ := hb.compiled hbk
    cases haany : a.anyPath with
    | true => simp [pathMatcherLE, hbany, haany] at hle
    | false =>
      simp only [pathMatcherLE, hbany, haany, hbk, Bool.false_eq_true, if_false] at hle
      exact pathKey_under_segment ha hb hbase hbk hbp hle
  | byte =>
    have hroot := hb.emitted.byte hbk
    have hbany : b.anyPath = false := by simp [Matcher.anyPath, hbk, hroot]
    cases haany : a.anyPath with
    | true => simp [pathMatcherLE, hbany, haany] at hle
    | false =>
      simp only [pathMatcherLE, hbany, haany, hbk, Bool.false_eq_true, if_false,
        bytePrefixCovers, if_neg hroot] at hle
      refine pathKey_under_byte ha hb hbk (anyPath_eq_false haany).1 (fun base hk hp => ?_)
        fun hk => ?_
      · simp only [hk, hp, cutSuffix_append, Bool.true_and, Bool.and_eq_true, hasPrefix_iff] at hle
        exact hle.2
      · simpa only [hk, hasPrefix_iff] using hle

end PathOrder

/-! ### Hosts -/

theorem Routable.host_ne_nil_iff (h : Routable m) : m.host ≠ [] ↔ m.hostKind ≠ .any :=
  not_congr h.emitted.anyHost.symm

theorem lt_append_dot (s : Bytes) : s < s ++ lit "." := by
  induction s with
  | nil => exact List.nil_lt_cons _ _
  | cons c s ih => exact List.cons_lt_cons_iff.mpr (Or.inr ⟨rfl, ih⟩)

/-- Between two compared hosts, the included one includes the other as well, is the only exact one,
or is the shorter spelling of two Traefik hosts. -/
theorem hostMatcherLE_key (ha : Routable a) (hb : Routable b)
    (hbk : b.hostKind ≠ .any) (hle : hostMatcherLE a b = true) :
    a.hostKind ≠ .any ∧ (hostMatcherLE b a = true ∨
      dynamicHostSpecificity b < dynamicHostSpecificity a ∨
      dynamicHostSpecificity a = dynamicHostSpecificity b ∧ a.host < b.host) := by
  cases hk : b.hostKind with
  | any => exact absurd hk hbk
  | exact =>
    cases hak : a.hostKind with
    | any => simp [hostMatcherLE, Matcher.anyHost, hk, hak] at hle
    | exact =>
      have hfold : toLower a.host = toLower b.host := by
        simpa [hostMatcherLE, Matcher.anyHost, hk, hak] using hle
      refine ⟨by simp, Or.inl ?_⟩
      simp [hostMatcherLE, Matcher.anyHost, hk, hak, hfold]
    | traefik => simp [hostMatcherLE, Matcher.anyHost, hk, hak] at hle
  | traefik =>
    cases hak : a.hostKind with
    | any => simp [hostMatcherLE, Matcher.anyHost, hk, hak] at hle
    | exact => exact ⟨by simp, Or.inr (Or.inl (by simp [dynamicHostSpecificity, hk, hak]))⟩
    | traefik =>
      have htraefik : traefikHostLE a.host b.host = true := by
        simpa [hostMatcherLE, Matcher.anyHost, hk, hak] using hle
      rw [traefikHostLE_iff, ha.lower, hb.lower] at htraefik
      refine ⟨by simp, ?_⟩
      rcases htraefik with heq | ⟨_, hdot⟩
      · left
        simp [hostMatcherLE, Matcher.anyHost, hk, hak, traefikHostLE, heq]
      · refine Or.inr (Or.inr ⟨by simp [dynamicHostSpecificity, hk, hak], ?_⟩)
        rw [hdot]
        exact lt_append_dot a.host

/-! ### The order -/

/-- A comparison of the first component decides. -/
theorem specKey_lt_of_host (ha : a.host ≠ []) (hb : b.host = []) : specKey b < specKey a := by
  rw [specKey_eq, specKey_eq, List.cons_lt_cons_iff]
  left
  simp [ha, hb]

/-- With both hosts compared or neither, the path decides first. -/
theorem specKey_lt_of_path (hhost : (a.host != []) = (b.host != []))
    (hpath : pathKey b < pathKey a) : specKey b < specKey a := by
  rcases hpa : dynamicPatternSpecificity a with ⟨ae, al, ak⟩
  rcases hpb : dynamicPatternSpecificity b with ⟨be, bl, bk⟩
  simp only [pathKey, hpa, hpb, key_lt_iff] at hpath
  simp only [specKey, hpa, hpb, hhost, List.cons_lt_cons_iff]
  refine Or.inr ⟨trivial, ?_⟩
  rcases hpath with h | ⟨he, h | ⟨hl, hk⟩⟩
  · exact Or.inl h
  · exact Or.inr ⟨he, Or.inl h⟩
  · exact Or.inr ⟨he, Or.inr ⟨hl, Or.inl hk⟩⟩

/-- At equal paths the kind of the host comparison decides. -/
theorem specKey_of_path_eq (hhost : (a.host != []) = (b.host != []))
    (hpath : pathKey a = pathKey b) :
    (dynamicHostSpecificity b < dynamicHostSpecificity a → specKey b < specKey a) ∧
      (dynamicHostSpecificity a = dynamicHostSpecificity b → specKey a = specKey b) := by
  rw [specKey_eq, specKey_eq, hhost, hpath]
  refine ⟨fun hlt => ?_, fun heq => by rw [heq]⟩
  rw [List.cons_lt_cons_iff]
  refine Or.inr ⟨rfl, ?_⟩
  exact List.append_left_lt (List.cons_lt_cons_iff.mpr (Or.inl hlt))

theorem strictlyWithin_iff (ha : a.WellFormed) (hb : b.WellFormed) :
    StrictlyWithin a b ↔ matcherLE a b = true ∧ matcherLE b a = false := by
  rw [← Bool.not_eq_true]
  exact and_congr ⟨matcherLE_complete ha hb, fun hle _ _ _ hroot => matcherLE_sound hroot hle⟩
    (not_congr ⟨matcherLE_complete hb ha, fun hle _ _ _ hroot => matcherLE_sound hroot hle⟩)

/-- Of two matchers of strictly included request sets the narrower comes first. -/
theorem hostPathKey_of_strictlyWithin (ha : Routable a) (hb : Routable b)
    (h : StrictlyWithin a b) : hostPathKey a < hostPathKey b := by
  rw [strictlyWithin_iff ha.toWellFormed hb.toWellFormed, matcherLE, matcherLE, Bool.and_eq_true,
    Bool.and_eq_false_iff] at h
  obtain ⟨⟨hhost, hpath⟩, hnot⟩ := h
  have hkey : specKey b < specKey a → hostPathKey a < hostPathKey b :=
    fun hlt => Prod.Lex.toLex_lt_toLex.mpr (Or.inl (OrderDual.toDual_lt_toDual.mpr hlt))
  by_cases hbhost : b.hostKind = .any
  · -- Every host on the right: a compared host on the left wins, otherwise the paths differ.
    refine hkey ?_
    have hbnil := hb.emitted.anyHost.mp hbhost
    by_cases hahost : a.hostKind = .any
    · have hback : hostMatcherLE b a = true := by simp [hostMatcherLE, Matcher.anyHost, hahost]
      have hnopath : pathMatcherLE b a = false := hnot.resolve_left (by simp [hback])
      refine specKey_lt_of_path (by rw [ha.emitted.anyHost.mp hahost, hbnil]) ?_
      rcases pathMatcherLE_key ha hb hpath with hlt | ⟨_, hback'⟩
      · exact hlt
      · rw [hback'] at hnopath
        cases hnopath
    · exact specKey_lt_of_host ((ha.host_ne_nil_iff).mpr hahost) hbnil
  · obtain ⟨hahost, horder⟩ := hostMatcherLE_key ha hb hbhost hhost
    have hane := ha.host_ne_nil_iff.mpr hahost
    have hbne := hb.host_ne_nil_iff.mpr hbhost
    have hboth : (a.host != []) = (b.host != []) := by
      rw [bne_iff_ne.mpr hane, bne_iff_ne.mpr hbne]
    rcases pathMatcherLE_key ha hb hpath with hlt | ⟨heq, hback⟩
    · exact hkey (specKey_lt_of_path hboth hlt)
    · have hnohost : hostMatcherLE b a = false := hnot.resolve_right (by simp [hback])
      obtain ⟨hspec, hsame⟩ := specKey_of_path_eq hboth heq
      rcases horder with hmutual | hlt | ⟨hkind, hspelling⟩
      · rw [hmutual] at hnohost
        cases hnohost
      · exact hkey (hspec hlt)
      · refine Prod.Lex.toLex_lt_toLex.mpr (Or.inr ⟨by rw [hsame hkind], ?_⟩)
        exact Prod.Lex.toLex_lt_toLex.mpr (Or.inl hspelling)

def orderKey (priorities : Bool) (r : CompiledRoute) :
    ℤᵒᵈ ×ₗ ((List ℕ)ᵒᵈ ×ₗ Bytes ×ₗ Bytes) ×ₗ Bytes :=
  toLex (OrderDual.toDual (if priorities then r.matcher.priority else 0), routeKey r)

theorem dynamicRoutePrecedes_iff_orderKey {a b : CompiledRoute} {priorities : Bool}
    (ha : a.matcher.priorityOrder = priorities) (hb : b.matcher.priorityOrder = priorities) :
    dynamicRoutePrecedes a b = true ↔ orderKey priorities a < orderKey priorities b := by
  cases priorities with
  | false =>
    simp only [orderKey, Prod.Lex.toLex_lt_toLex, Bool.false_eq_true, if_false, lt_irrefl, true_and,
      false_or]
    exact dynamicRoutePrecedes_iff ha
  | true =>
    simp only [orderKey, Prod.Lex.toLex_lt_toLex, if_true, OrderDual.toDual_lt_toDual,
      EmbeddingLike.apply_eq_iff_eq]
    by_cases hp : a.matcher.priority = b.matcher.priority
    · -- Equal priorities leave the order of routes without them.
      have hoff := dynamicRoutePrecedes_iff
        (a := { a with matcher := { a.matcher with priorityOrder := false } }) (b := b) rfl
      have hsame : dynamicRoutePrecedes a b = dynamicRoutePrecedes
          { a with matcher := { a.matcher with priorityOrder := false } } b := by
        simp only [dynamicRoutePrecedes, hp, ne_eq, not_true, and_false, if_false]
        rfl
      rw [hsame, hoff, hp]
      simp only [lt_irrefl, true_and, false_or]
      rfl
    · simp [dynamicRoutePrecedes, ha, hb, hp]

/-- The first route that serves a request after sorting comes before every other that does. -/
theorem routeKey_le_of_selected {routes : List CompiledRoute} {req : Request} {r : CompiledRoute}
    (hoff : ∀ c ∈ routes, c.matcher.priorityOrder = false)
    (hsel : findCompiledRoute (sortDynamicRoutes routes) req = some r) {u : CompiledRoute}
    (hu : u ∈ routes) (hserves : u.serves req = true) : routeKey r ≤ routeKey u := by
  obtain ⟨-, before, after, hsplit, hbefore⟩ := List.find?_eq_some_iff_append.mp hsel
  have hsorted := sortDynamicRoutes_sorted hoff
  have hmem : u ∈ sortDynamicRoutes routes := mem_stableSort.mpr hu
  rw [hsplit] at hsorted hmem
  rcases List.mem_append.mp hmem with hmem | hmem
  · have := hbefore u hmem
    rw [hserves] at this
    cases this
  · rcases List.mem_cons.mp hmem with heq | hmem
    · rw [heq]
    · exact (List.pairwise_cons.mp (List.pairwise_append.mp hsorted).2.1).1 u hmem

theorem mem_of_selected {routes : List CompiledRoute} {req : Request} {r : CompiledRoute}
    (hsel : findCompiledRoute (sortDynamicRoutes routes) req = some r) : r ∈ routes :=
  mem_stableSort.mp (List.mem_of_find?_eq_some hsel)

/-- **The specificity order refines containment.**  Of two routes without priorities whose request
sets are strictly included the narrower precedes.  Among routes that all have priorities or all have
none the order is a strict weak order.  After sorting, no selected route is strictly broader than
another route that serves the request, and no rejection that matches is more specific than the one
selected. -/
theorem specificity_refines_containment :
    (∀ a b : CompiledRoute, Routable a.matcher → Routable b.matcher →
      a.matcher.priorityOrder = false → b.matcher.priorityOrder = false →
      StrictlyWithin a.matcher b.matcher →
      dynamicRoutePrecedes a b = true ∧ dynamicRoutePrecedes b a = false) ∧
    (∀ (priorities : Bool) (a b c : CompiledRoute), a.matcher.priorityOrder = priorities →
      b.matcher.priorityOrder = priorities → c.matcher.priorityOrder = priorities →
      dynamicRoutePrecedes a a = false ∧
        (dynamicRoutePrecedes a b = true → dynamicRoutePrecedes b c = true →
          dynamicRoutePrecedes a c = true) ∧
        (dynamicRoutePrecedes a c = true →
          dynamicRoutePrecedes a b = true ∨ dynamicRoutePrecedes b c = true)) ∧
    (∀ (routes : List CompiledRoute) (req : Request) (r : CompiledRoute),
      (∀ c ∈ routes, Routable c.matcher ∧ c.matcher.priorityOrder = false) →
      findCompiledRoute (sortDynamicRoutes routes) req = some r →
      ∀ u ∈ routes, u.serves req = true → ¬ StrictlyWithin u.matcher r.matcher) ∧
    ∀ (rejections : List CompiledRoute) (req : Request) (r : CompiledRoute),
      (∀ c ∈ rejections, c.matcher.priorityOrder = false) →
      findCompiledRoute (sortDynamicRoutes rejections) req = some r →
      ∀ u ∈ rejections, u.serves req = true → compareDynamicSpecificity u.matcher r.matcher ≤ 0 := by
  have hroute : ∀ a b : CompiledRoute, hostPathKey a.matcher < hostPathKey b.matcher →
      routeKey a < routeKey b := fun a b hlt => Prod.Lex.toLex_lt_toLex.mpr (Or.inl hlt)
  refine ⟨fun a b ha hb hoffa hoffb hwithin => ?_, fun priorities a b c ha hb hc => ?_,
    fun routes req r hroutes hsel u hu hserves hwithin => ?_,
    fun rejections req r hoff hsel u hu hserves => ?_⟩
  · rw [← Bool.not_eq_true, dynamicRoutePrecedes_iff hoffa, dynamicRoutePrecedes_iff hoffb]
    have h := hroute a b (hostPathKey_of_strictlyWithin ha hb hwithin)
    exact ⟨h, h.asymm⟩
  · rw [← Bool.not_eq_true, dynamicRoutePrecedes_iff_orderKey ha ha,
      dynamicRoutePrecedes_iff_orderKey ha hb, dynamicRoutePrecedes_iff_orderKey hb hc,
      dynamicRoutePrecedes_iff_orderKey ha hc]
    exact ⟨lt_irrefl _, lt_trans, fun hac =>
      (lt_or_ge (orderKey priorities a) (orderKey priorities b)).imp id fun hle => hle.trans_lt hac⟩
  · have hle := routeKey_le_of_selected (fun c hc => (hroutes c hc).2) hsel hu hserves
    have hlt := hostPathKey_of_strictlyWithin (hroutes u hu).1
      (hroutes r (mem_of_selected hsel)).1 hwithin
    exact absurd (hroute u r hlt) (not_lt.mpr hle)
  · have hle := routeKey_le_of_selected hoff hsel hu hserves
    by_contra hpos
    have hspec := (compareDynamicSpecificity_pos u.matcher r.matcher).mp (not_le.mp hpos)
    refine absurd (hroute u r ?_) (not_lt.mpr hle)
    exact Prod.Lex.toLex_lt_toLex.mpr (Or.inl (OrderDual.toDual_lt_toDual.mpr hspec))

/-- `Host("x")` inside `Host("x.")` at the same prefix, as the rule parser emits them: only the
spelling separates them. -/
theorem specificity_refines_containment_dot :
    let a : CompiledRoute :=
      { matcher := { host := lit "x", hostKind := .traefik, path := lit "/api", pathKind := .byte } }
    let b : CompiledRoute :=
      { matcher := { host := lit "x.", hostKind := .traefik, path := lit "/api", pathKind := .byte } }
    StrictlyWithin a.matcher b.matcher ∧ dynamicRoutePrecedes a b = true ∧
      dynamicRoutePrecedes b a = false := by
  intro a b
  have hrule : parseRule (lit "Host(\"x\", \"x.\") && PathPrefix(\"/api\")") =
      .ok [a.matcher, b.matcher] := by decide +kernel
  have hemitted := fun m hm => (parseRule_unstamped hrule m hm).emitted
  have ha : Routable a.matcher :=
    routable_of_emitted (hemitted _ (by simp)) (by decide) (by decide) (by decide)
  have hb : Routable b.matcher :=
    routable_of_emitted (hemitted _ (by simp)) (by decide) (by decide) (by decide)
  have hwithin : StrictlyWithin a.matcher b.matcher :=
    (strictlyWithin_iff ha.toWellFormed hb.toWellFormed).mpr (by decide)
  exact ⟨hwithin, specificity_refines_containment.1 a b ha hb rfl rfl hwithin⟩

end Statute.Provider
