import Statute.Provider.Dispatch

/-!
# Arbitration of mutation quarantines

A quarantine stands for a container whose state is being changed.  An ordinary route may be served
past a matching quarantine only when the quarantine is less specific, or when both have one
host/path predicate and the quarantine's own service has a healthy route with that predicate.

The scan of `findDynamicCandidate` compares whole traffic, peers and listeners included, and stops
at the first quarantine that is other traffic and does not precede.  `not_bypassed_iff` says on
which tables that is enough.
-/

namespace Statute.Provider

open Statute.Base Statute.Docker

/-! ### What arbitration owes -/

/-- Identical `Host`, `HostKind`, `Path` and `PathKind`. -/
def samePredicate (a b : Matcher) : Prop :=
  a.host = b.host ∧ a.hostKind = b.hostKind ∧ a.path = b.path ∧ a.pathKind = b.pathKind

/-- The quarantine's own service has a route with its predicate that matches the request. -/
def OwnRoute (routes : List CompiledRoute) (req : Request) (q : CompiledRoute) : Prop :=
  ∃ r ∈ routes, r.service = q.service ∧ samePredicate r.matcher q.matcher ∧ r.serves req = true

/-- No matching quarantine is bypassed by an ordinary route: it comes strictly after the route, or
ties with it and its own service has a route. -/
def NotBypassed (table : DynamicTable) (req : Request) : Prop :=
  ∀ r, findDynamicCandidate table req = some (r, false) →
    ∀ q ∈ table.quarantines, q.serves req = true →
      hostPathPrecedes r.matcher q.matcher = true ∨
        (samePredicate q.matcher r.matcher ∧ OwnRoute table.routes req q)

/-! ### When the scan delivers it -/

/-- The matching quarantines that tie with `r` on host and path, in table order. -/
def tiedQuarantines (table : DynamicTable) (req : Request) (r : CompiledRoute) :
    List CompiledRoute :=
  table.quarantines.filter fun q => q.serves req && !hostPathPrecedes r.matcher q.matcher &&
    !hostPathPrecedes q.matcher r.matcher

/-- The quarantine's own service has a route with its whole traffic that matches the request. -/
def Backed (routes : List CompiledRoute) (req : Request) (q : CompiledRoute) : Prop :=
  ∃ r ∈ routes, r.service = q.service ∧ sameDynamicTraffic r.matcher q.matcher = true ∧
    r.serves req = true

/-- `q` is the first of the tied quarantines that is not the route's traffic with a backing route of
its own service, and it stops the scan: it is the route's traffic, or it heads the list and its
service comes first. -/
def Stops (routes : List CompiledRoute) (req : Request) (r : CompiledRoute)
    (tied : List CompiledRoute) : Prop :=
  ∃ before q after, tied = before ++ q :: after ∧
    (∀ e ∈ before, sameDynamicTraffic r.matcher e.matcher = true ∧ Backed routes req e) ∧
    ((sameDynamicTraffic r.matcher q.matcher = true ∧ ¬ Backed routes req q) ∨
      (before = [] ∧ sameDynamicTraffic r.matcher q.matcher = false ∧ q.service < r.service))

/-- The tables and requests on which no quarantine is bypassed: for the first matching route, some
matching quarantine is more specific, or the tied quarantines stop the scan, or each of them has the
route's predicate and a route of its own service. -/
def Shielded (table : DynamicTable) (req : Request) : Prop :=
  ∀ r, findCompiledRoute table.routes req = some r →
    (∃ q ∈ table.quarantines, q.serves req = true ∧ hostPathPrecedes q.matcher r.matcher = true) ∨
      Stops table.routes req r (tiedQuarantines table req r) ∨
      ∀ q ∈ tiedQuarantines table req r,
        samePredicate q.matcher r.matcher ∧ OwnRoute table.routes req q

/-! ### The scan -/

variable {routes : List CompiledRoute} {req : Request} {q : CompiledRoute}

theorem findSameService_none (h : findSameServiceDynamicRoute routes req q = none) :
    ¬ Backed routes req q := by
  rintro ⟨r, hr, hs, ht, hm⟩
  exact List.find?_eq_none.1 h r hr (by simp [hs, ht, hm])

variable {r : CompiledRoute}

theorem findSameService_some (h : findSameServiceDynamicRoute routes req q = some r) :
    r ∈ routes ∧ r.service = q.service ∧ sameDynamicTraffic r.matcher q.matcher = true ∧
      r.serves req = true := by
  have hp := List.find?_some h
  simp only [Bool.and_eq_true, beq_iff_eq, and_assoc] at hp
  exact ⟨List.mem_of_find?_eq_some h, hp⟩

/-- Quarantines that do not match the request are skipped. -/
theorem scan_filter (routes : List CompiledRoute) (req : Request) (r : CompiledRoute)
    (qs : List CompiledRoute) :
    scanQuarantines routes req r qs =
      scanQuarantines routes req r (qs.filter fun q => q.serves req) := by
  induction qs generalizing r with
  | nil => rfl
  | cons q rest ih =>
    cases hq : q.serves req with
    | false => simp [scanQuarantines, hq, ih]
    | true =>
      simp only [scanQuarantines, hq, List.filter_cons_of_pos, Bool.true_eq_false, if_false]
      split
      · cases findSameServiceDynamicRoute routes req q with
        | none => rfl
        | some s => exact ih s
      · rfl

/-- An ordinary result has the traffic of the first candidate. -/
theorem scan_traffic {r' : CompiledRoute} {qs : List CompiledRoute}
    (h : scanQuarantines routes req r qs = (r', false)) :
    sameDynamicTraffic r.matcher r'.matcher = true := by
  induction qs generalizing r with
  | nil =>
    obtain rfl : r = r' := congrArg Prod.fst h
    exact sameDynamicTraffic_refl _
  | cons q rest ih =>
    simp only [scanQuarantines] at h
    split_ifs at h with hq hsame
    · exact ih h
    · split at h
      · exact absurd (congrArg Prod.snd h) (by simp)
      · rename_i s hs
        have hrs : sameDynamicTraffic s.matcher q.matcher = true := (findSameService_some hs).2.2.1
        rw [sameDynamicTraffic_congr hsame, ← sameDynamicTraffic_congr hrs]
        exact ih h
    · exact absurd (congrArg Prod.snd h) (by simp)
    · obtain rfl : r = r' := congrArg Prod.fst h
      exact sameDynamicTraffic_refl _

theorem stops_nil (routes : List CompiledRoute) (req : Request) (r : CompiledRoute) :
    ¬ Stops routes req r [] := by
  rintro ⟨before, q, after, h, _⟩
  simp at h

/-- A head that is other traffic stops the scan exactly when its service comes first. -/
theorem stops_cons_other {rest : List CompiledRoute}
    (hsame : sameDynamicTraffic r.matcher q.matcher = false) :
    Stops routes req r (q :: rest) ↔ q.service < r.service := by
  constructor
  · rintro ⟨before, q', after, heq, hbefore, hstop⟩
    cases before with
    | nil =>
      obtain ⟨rfl, rfl⟩ := List.cons.inj heq
      rcases hstop with ⟨h, _⟩ | ⟨_, _, h⟩
      · exact absurd h (by simp [hsame])
      · exact h
    | cons e before =>
      obtain ⟨rfl, -⟩ := List.cons.inj heq
      exact absurd (hbefore q List.mem_cons_self).1 (by simp [hsame])
  · intro h
    exact ⟨[], q, rest, rfl, by simp, Or.inr ⟨rfl, hsame, h⟩⟩

/-- Behind a backed head the scan goes on with the backing route. -/
theorem stops_cons_backed {s : CompiledRoute} {rest : List CompiledRoute}
    (hsame : sameDynamicTraffic r.matcher q.matcher = true)
    (hs : findSameServiceDynamicRoute routes req q = some s)
    (hsorted : ∀ e ∈ rest, q.service ≤ e.service) :
    Stops routes req r (q :: rest) ↔ Stops routes req s rest := by
  obtain ⟨hmem, hserv, htraffic, hmatch⟩ := findSameService_some hs
  have hback : Backed routes req q := ⟨s, hmem, hserv, htraffic, hmatch⟩
  have hcongr : ∀ m, sameDynamicTraffic s.matcher m = sameDynamicTraffic r.matcher m := by
    intro m
    rw [sameDynamicTraffic_congr hsame, sameDynamicTraffic_congr htraffic]
  constructor
  · rintro ⟨before, q', after, heq, hbefore, hstop⟩
    cases before with
    | nil =>
      obtain ⟨rfl, rfl⟩ := List.cons.inj heq
      rcases hstop with ⟨_, h⟩ | ⟨_, h, _⟩
      · exact absurd hback h
      · exact absurd h (by simp [hsame])
    | cons e before =>
      obtain ⟨rfl, rfl⟩ := List.cons.inj heq
      refine ⟨before, q', after, rfl, ?_, ?_⟩
      · intro e he
        rw [hcongr]
        exact hbefore e (List.mem_cons_of_mem _ he)
      · rcases hstop with h | ⟨h, _⟩
        · rw [hcongr]
          exact Or.inl h
        · cases h
  · rintro ⟨before, q', after, heq, hbefore, hstop⟩
    refine ⟨q :: before, q', after, by rw [heq]; rfl, ?_, ?_⟩
    · intro e he
      rcases List.mem_cons.1 he with rfl | he
      · exact ⟨hsame, hback⟩
      · rw [← hcongr]
        exact hbefore e he
    · rcases hstop with h | ⟨rfl, _, h⟩
      · rw [← hcongr]
        exact Or.inl h
      · -- the next quarantine's service does not come before the backing route's
        have hle := hsorted q' (heq ▸ List.mem_cons_self)
        rw [hserv] at h
        exact absurd h (not_lt.2 hle)

/-- **The scan over the tied quarantines** reports a quarantine exactly when one of them stops
it; the quarantines behind the ties are never reported. -/
theorem scan_tied {tied later : List CompiledRoute}
    (hserve : ∀ q ∈ tied ++ later, q.serves req = true)
    (hoff : ∀ q ∈ tied ++ later, q.matcher.priorityOrder = false)
    (htied : ∀ q ∈ tied, hostPathKey q.matcher = hostPathKey r.matcher)
    (hlater : ∀ q ∈ later, hostPathKey r.matcher < hostPathKey q.matcher)
    (hsorted : tied.Pairwise (fun a b => a.service ≤ b.service)) :
    (scanQuarantines routes req r (tied ++ later)).2 = true ↔ Stops routes req r tied := by
  induction tied generalizing r with
  | nil =>
    simp only [List.nil_append, iff_false_intro (stops_nil routes req r), iff_false,
      Bool.not_eq_true]
    cases later with
    | nil => rfl
    | cons q rest =>
      have hlt := hlater q List.mem_cons_self
      have hsame : sameDynamicTraffic r.matcher q.matcher = false := by
        by_contra h
        exact hlt.ne (hostPathKey_of_sameDynamicTraffic (by simpa using h))
      have hprec : dynamicRoutePrecedes q r = false := by
        rw [← Bool.not_eq_true, dynamicRoutePrecedes_iff (hoff q (by simp)), routeKey, routeKey,
          Prod.Lex.toLex_lt_toLex]
        simp [hlt.ne', hlt.le]
      simp [scanQuarantines, hserve q (by simp), hsame, hprec]
  | cons q rest ih =>
    rw [List.pairwise_cons] at hsorted
    have hkey := htied q List.mem_cons_self
    have hrest : ∀ s, hostPathKey s.matcher = hostPathKey r.matcher →
        ((scanQuarantines routes req s (rest ++ later)).2 = true ↔ Stops routes req s rest) := by
      intro s hs
      refine ih (fun e he => hserve e (List.mem_cons_of_mem _ he))
        (fun e he => hoff e (List.mem_cons_of_mem _ he)) (fun e he => ?_) (fun e he => ?_) hsorted.2
      · rw [hs]
        exact htied e (List.mem_cons_of_mem _ he)
      · rw [hs]
        exact hlater e he
    simp only [List.cons_append, scanQuarantines, hserve q (by simp), Bool.true_eq_false, if_false]
    cases hsame : sameDynamicTraffic r.matcher q.matcher with
    | false =>
      rw [stops_cons_other hsame]
      have hprec : dynamicRoutePrecedes q r = true ↔ q.service < r.service := by
        rw [dynamicRoutePrecedes_iff (hoff q (by simp)), routeKey, routeKey,
          Prod.Lex.toLex_lt_toLex]
        simp [hkey]
      rw [← hprec]
      cases dynamicRoutePrecedes q r <;> simp
    | true =>
      simp only [if_true]
      cases hs : findSameServiceDynamicRoute routes req q with
      | none =>
        have hno := findSameService_none hs
        simp only [true_iff]
        exact ⟨[], q, rest, rfl, by simp, Or.inl ⟨hsame, hno⟩⟩
      | some s =>
        have htraffic := (findSameService_some hs).2.2.1
        rw [stops_cons_backed hsame hs hsorted.1]
        exact hrest s ((hostPathKey_of_sameDynamicTraffic htraffic).trans hkey)

/-- A more specific quarantine heads the matching ones and is reported. -/
theorem scan_before {qs : List CompiledRoute} (hserve : ∀ q ∈ qs, q.serves req = true)
    (hoff : ∀ q ∈ qs, q.matcher.priorityOrder = false)
    (hsorted : qs.Pairwise (fun a b => routeKey a ≤ routeKey b))
    (hbefore : ∃ q ∈ qs, hostPathKey q.matcher < hostPathKey r.matcher) :
    (scanQuarantines routes req r qs).2 = true := by
  obtain ⟨q, hq, hlt⟩ := hbefore
  cases qs with
  | nil => cases hq
  | cons e rest =>
    have hle : hostPathKey e.matcher ≤ hostPathKey q.matcher := by
      rcases List.mem_cons.1 hq with rfl | hq
      · exact le_refl _
      · exact (Prod.Lex.toLex_le_toLex.1 ((List.pairwise_cons.1 hsorted).1 q hq)).elim le_of_lt
          fun h => h.1.le
    have hlt' := hle.trans_lt hlt
    have hsame : sameDynamicTraffic r.matcher e.matcher = false := by
      by_contra h
      exact hlt'.ne' (hostPathKey_of_sameDynamicTraffic (by simpa using h))
    have hprec : dynamicRoutePrecedes e r = true := by
      rw [dynamicRoutePrecedes_iff (hoff e (by simp)), routeKey, routeKey,
        Prod.Lex.toLex_lt_toLex]
      exact Or.inl hlt'
    simp [scanQuarantines, hserve e (by simp), hsame, hprec]

/-! ### Exactly the shielded tables -/

theorem samePredicate_of_traffic {a b : Matcher} (h : sameDynamicTraffic a b = true) :
    samePredicate a b := by
  rw [sameDynamicTraffic_iff] at h
  exact ⟨h.1, h.2.1, h.2.2.1, h.2.2.2.1⟩

theorem samePredicate_trans {a b c : Matcher} (hab : samePredicate a b) (hbc : samePredicate b c) :
    samePredicate a c :=
  ⟨hab.1.trans hbc.1, hab.2.1.trans hbc.2.1, hab.2.2.1.trans hbc.2.2.1, hab.2.2.2.trans hbc.2.2.2⟩

theorem samePredicate_symm {a b : Matcher} (h : samePredicate a b) : samePredicate b a :=
  ⟨h.1.symm, h.2.1.symm, h.2.2.1.symm, h.2.2.2.symm⟩

theorem mem_tiedQuarantines {table : DynamicTable} :
    q ∈ tiedQuarantines table req r ↔ q ∈ table.quarantines ∧ q.serves req = true ∧
      hostPathKey q.matcher = hostPathKey r.matcher := by
  simp only [tiedQuarantines, List.mem_filter, Bool.and_eq_true, Bool.not_eq_true', ← Bool.not_eq_true,
    hostPathPrecedes_iff, not_lt, and_assoc]
  refine and_congr_right fun _ => and_congr_right fun _ => ?_
  exact ⟨fun h => le_antisymm h.1 h.2, fun h => ⟨h.le, h.ge⟩⟩

/-- The outcome of the scan from the first matching route, when no quarantine is more specific. -/
theorem scan_flag {table : DynamicTable}
    (hoff : ∀ q ∈ table.quarantines, q.matcher.priorityOrder = false)
    (hsorted : table.quarantines.Pairwise (fun a b => routeKey a ≤ routeKey b))
    (hnone : ¬ ∃ q ∈ table.quarantines, q.serves req = true ∧
      hostPathPrecedes q.matcher r.matcher = true) :
    (scanQuarantines table.routes req r table.quarantines).2 = true ↔
      Stops table.routes req r (tiedQuarantines table req r) := by
  set qs := table.quarantines.filter fun q => q.serves req with hqs
  have hmem : ∀ q ∈ qs, q ∈ table.quarantines ∧ q.serves req = true := by
    intro q hq
    exact List.mem_filter.1 hq
  have hsorted' : qs.Pairwise (fun a b => routeKey a ≤ routeKey b) := hsorted.filter _
  have hkeys : qs.Pairwise (fun a b => hostPathKey a.matcher ≤ hostPathKey b.matcher) :=
    hsorted'.imp fun h => (Prod.Lex.toLex_le_toLex.1 h).elim le_of_lt fun h => h.1.le
  have hge : ∀ q ∈ qs, hostPathKey r.matcher ≤ hostPathKey q.matcher := by
    intro q hq
    by_contra hlt
    exact hnone ⟨q, (hmem q hq).1, (hmem q hq).2, (hostPathPrecedes_iff _ _).2 (not_le.1 hlt)⟩
  have htied : tiedQuarantines table req r = qs.filter fun q =>
      !hostPathPrecedes r.matcher q.matcher && !hostPathPrecedes q.matcher r.matcher := by
    rw [hqs, List.filter_filter, tiedQuarantines]
    refine List.filter_congr fun q _ => ?_
    rw [Bool.and_assoc, Bool.and_comm]
  obtain ⟨later, hsplit, hlater⟩ := sorted_split hkeys hge
    (p := fun q => !hostPathPrecedes r.matcher q.matcher && !hostPathPrecedes q.matcher r.matcher)
    fun q _ => by
      simp only [Bool.and_eq_true, Bool.not_eq_true', ← Bool.not_eq_true, hostPathPrecedes_iff,
        not_lt]
      exact ⟨fun h => le_antisymm h.1 h.2, fun h => ⟨h.le, h.ge⟩⟩
  rw [← htied] at hsplit
  rw [scan_filter, ← hqs, hsplit]
  refine scan_tied ?_ ?_ ?_ hlater ?_
  · intro q hq
    exact (hmem q (hsplit ▸ hq)).2
  · intro q hq
    exact hoff q (hmem q (hsplit ▸ hq)).1
  · intro q hq
    exact (mem_tiedQuarantines.1 hq).2.2
  · have hsub : (tiedQuarantines table req r).Sublist qs := htied ▸ List.filter_sublist
    refine (hsorted'.sublist hsub).imp_of_mem fun {a b} ha hb h => ?_
    rcases Prod.Lex.toLex_le_toLex.1 h with h | h
    · exact absurd h (by simp [(mem_tiedQuarantines.1 ha).2.2, (mem_tiedQuarantines.1 hb).2.2])
    · exact h.2

/-- **When quarantines cannot be bypassed.**  On a table whose quarantines are sorted by
`sortDynamicRoutes` without priorities, no matching quarantine is bypassed exactly when the table is
shielded for the request.  The order of the routes plays no part. -/
theorem not_bypassed_iff (table : DynamicTable) (quarantines : List CompiledRoute)
    (hquarantines : table.quarantines = sortDynamicRoutes quarantines)
    (hoff : ∀ q ∈ quarantines, q.matcher.priorityOrder = false) (req : Request) :
    NotBypassed table req ↔ Shielded table req := by
  have hoffq : ∀ q ∈ table.quarantines, q.matcher.priorityOrder = false := by
    intro q hq
    rw [hquarantines] at hq
    exact hoff q (mem_stableSort.1 hq)
  have hsorted : table.quarantines.Pairwise (fun a b => routeKey a ≤ routeKey b) := by
    rw [hquarantines]
    exact sortDynamicRoutes_sorted hoff
  cases hfind : findCompiledRoute table.routes req with
  | none =>
    refine iff_of_true ?_ ?_
    · intro r hr
      rw [findDynamicCandidate, hfind] at hr
      simp at hr
    · intro r hr
      rw [hfind] at hr
      exact absurd hr (by simp)
  | some r₀ =>
    have hcand : findDynamicCandidate table req =
        some (scanQuarantines table.routes req r₀ table.quarantines) := by
      rw [findDynamicCandidate, hfind]
    by_cases hbefore : ∃ q ∈ table.quarantines, q.serves req = true ∧
        hostPathPrecedes q.matcher r₀.matcher = true
    · -- the most specific matching quarantine is reported
      refine iff_of_true ?_ ?_
      · intro r hr
        have hflag : (scanQuarantines table.routes req r₀ table.quarantines).2 = true := by
          rw [scan_filter]
          refine scan_before (fun q hq => (List.mem_filter.1 hq).2)
            (fun q hq => hoffq q (List.mem_filter.1 hq).1) (hsorted.filter _) ?_
          obtain ⟨q, hq, hserve, hprec⟩ := hbefore
          exact ⟨q, List.mem_filter.2 ⟨hq, hserve⟩, (hostPathPrecedes_iff _ _).1 hprec⟩
        rw [hcand, Option.some.injEq] at hr
        rw [hr] at hflag
        exact absurd hflag (by simp)
      · intro r hr
        obtain rfl : r₀ = r := Option.some.inj (hfind.symm.trans hr)
        exact Or.inl hbefore
    · have hflag := scan_flag hoffq hsorted hbefore
      constructor
      · intro hsafe r hr
        obtain rfl : r₀ = r := Option.some.inj (hfind.symm.trans hr)
        rcases hscan : scanQuarantines table.routes req r₀ table.quarantines with ⟨r', flag⟩
        rw [hscan] at hflag
        cases flag with
        | true => exact Or.inr (Or.inl (hflag.1 rfl))
        | false =>
          have htraffic := scan_traffic hscan
          refine Or.inr (Or.inr fun q hq => ?_)
          obtain ⟨hmem, hserve, hkey⟩ := mem_tiedQuarantines.1 hq
          rcases hsafe r' (by rw [hcand, hscan]) q hmem hserve with h | h
          · rw [hostPathPrecedes_iff, ← hostPathKey_of_sameDynamicTraffic htraffic, hkey] at h
            exact absurd h (lt_irrefl _)
          · exact ⟨samePredicate_trans h.1
              (samePredicate_symm (samePredicate_of_traffic htraffic)), h.2⟩
      · intro hsh r hr q hq hserve
        rw [hcand, Option.some.injEq] at hr
        have htraffic := scan_traffic hr
        rw [hr] at hflag
        have hgood := ((hsh r₀ hfind).resolve_left hbefore).resolve_left (by simp [← hflag])
        have hkey := hostPathKey_of_sameDynamicTraffic htraffic
        rw [hostPathPrecedes_iff, ← hkey]
        have hge : hostPathKey r₀.matcher ≤ hostPathKey q.matcher := by
          by_contra hlt
          exact hbefore ⟨q, hq, hserve, (hostPathPrecedes_iff _ _).2 (not_le.1 hlt)⟩
        rcases hge.lt_or_eq with hlt | heq
        · exact Or.inl hlt
        · have hgq := hgood q (mem_tiedQuarantines.2 ⟨hq, hserve, heq.symm⟩)
          exact Or.inr ⟨samePredicate_trans hgq.1 (samePredicate_of_traffic htraffic), hgq.2⟩

/-! ### A bypassed quarantine -/

/-- A route of service `a` for host `h`, limited to peers in `10.0.0.0/8`. -/
def peerScopedRoute : CompiledRoute where
  service := lit "a"
  matcher :=
    { host := lit "h", hostKind := .traefik, path := lit "/*",
      peerIPCIDRs := [⟨true, 10 * 2 ^ 24, 8, by decide, by decide⟩] }

/-- A quarantine of service `b` with the same host and path; quarantines carry no peers. -/
def peerlessQuarantine : CompiledRoute where
  service := lit "b"
  matcher := { host := lit "h", hostKind := .traefik, path := lit "/*" }

/-- The route and the quarantine in one table. -/
def bypassTable : DynamicTable where
  routes := sortDynamicRoutes [peerScopedRoute]
  quarantines := sortDynamicRoutes [peerlessQuarantine]

/-- A request for `h` from `10.0.0.1`. -/
def bypassRequest : Request where
  host := lit "h"
  path := lit "/"
  peer := some ⟨true, 10 * 2 ^ 24 + 1, [], by decide⟩

/-- The route of service `a` is served past the quarantine of service `b`, whose predicate ties with
the route's and whose service has no route at all. -/
theorem quarantine_bypassed : ¬ NotBypassed bypassTable bypassRequest := by
  intro h
  have hcand : findDynamicCandidate bypassTable bypassRequest = some (peerScopedRoute, false) := by
    decide
  rcases h _ hcand peerlessQuarantine (by decide) (by decide) with hprec | ⟨_, hown⟩
  · exact absurd hprec (by decide)
  · obtain ⟨r, hr, hserv, _⟩ := hown
    obtain rfl : r = peerScopedRoute := by
      simpa [bypassTable, sortDynamicRoutes] using hr
    exact absurd hserv (by decide)

/-- The equivalence at the table of the bypassed quarantine. -/
theorem not_bypassed_iff_bypassTable :
    NotBypassed bypassTable bypassRequest ↔ Shielded bypassTable bypassRequest :=
  not_bypassed_iff bypassTable [peerlessQuarantine] rfl (by decide) bypassRequest

end Statute.Provider
