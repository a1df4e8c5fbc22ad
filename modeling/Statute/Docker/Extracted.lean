import Statute.Docker.EnvelopeSound
import Statute.Docker.Labels

/-!
# What extraction keeps of a registration

Every registration that names traffic leaves something that matches it: a service with its routes, or
a refusal.  This file proves that for one container.

* `ruleEnvelope_of_reads`: the tolerant envelope of a rule also covers the strict reading of a rule
  the parser accepts;
* `Matcher.Formed`: the shape every extracted matcher has;
* `extractTraefik_leaves` and `extractNative_leaves`: a registration leaves its routes in an extracted
  service, or a tombstone that matches its traffic and carries its listeners.
-/

namespace Statute.Docker

open Statute.Base

/-! ### Strict trees are envelope trees -/

def RuleExpr.toTree : RuleExpr → RuleTree
  | .or l r => .or l.toTree r.toTree
  | .and l r => .and l.toTree r.toTree
  | .fn c => .fn c

theorem parseEnvArgs_of_parseRuleArgs {fn : Bytes} {args : List Bytes} {toks : List Token}
    {r : List Bytes × List Token} (h : parseRuleArgs fn args toks = .ok r) :
    parseEnvArgs args toks = .ok r := by
  fun_induction parseRuleArgs fn args toks with
  | case1 | case3 | case5 | case7 | case8 => cases h
  | case2 args rest =>
    rw [parseEnvArgs]
    exact congrArg Except.ok (Except.ok.inj h)
  | case4 args v rest hs ih =>
    rw [parseEnvArgs]
    exact ih h
  | case6 args v rest =>
    simp only [parseEnvArgs]
    exact congrArg Except.ok (Except.ok.inj h)

theorem parseEnvCall_of_parseRuleCall {t : Token} {rest : List Token} {r : Call × List Token}
    (h : parseRuleCall t rest = .ok r) :
    parseEnvCall t rest = .ok r ∧ envGrammar.isNot t = false := by
  unfold parseRuleCall at h
  split at h
  · rename_i name
    refine ⟨?_, by simp [envGrammar]⟩
    split at h
    · rename_i rest'
      split at h
      · cases h
      · rename_i args rest'' hargs
        simp only [parseEnvCall, parseEnvArgs_of_parseRuleArgs hargs]
        exact congrArg Except.ok (Except.ok.inj h)
    · cases h
  · cases h

theorem nextToken_negation {i : ℕ} {c : UInt8} {rest : Bytes} {r : Option Token × Bytes}
    (h : nextToken false i c rest = .ok r) : nextToken true i c rest = .ok r := by
  unfold nextToken at h ⊢
  split_ifs at h ⊢ <;> simp_all

theorem lexLoop_negation {n i : ℕ} {s : Bytes} {toks : List Token}
    (h : lexLoop false n i s = .ok toks) : lexLoop true n i s = .ok toks := by
  induction n generalizing i s toks with
  | zero =>
    cases s with
    | nil => exact h
    | cons c rest => simp [lexLoop] at h
  | succ n ih =>
    cases s with
    | nil => exact h
    | cons c rest =>
      simp only [lexLoop] at h ⊢
      split at h
      · cases h
      · rename_i tok rest' hnext
        simp only [nextToken_negation hnext]
        split at h
        · cases h
        · rename_i toks' hloop
          simp only [ih hloop]
          exact h

theorem lexEnvelope_of_lexRule {s : Bytes} {toks : List Token} (h : lexRule s = .ok toks) :
    lexEnvelope s = .ok toks := by
  unfold lexRule lexText at h
  unfold lexEnvelope lexText
  split at h
  · rename_i toks' hloop
    rw [lexLoop_negation hloop]
    exact h
  all_goals cases h

variable {rule : Bytes}

/-- The envelope grammar builds the same tree from a rule the strict grammar accepts. -/
theorem envTree_of_ruleTree {e : RuleExpr} (h : ruleTree rule = .ok e) :
    envTree rule = .ok e.toTree := by
  unfold ruleTree at h
  split at h
  · cases h
  rename_i toks htoks
  -- the strict grammar has no negation, so what an algebra makes of one does not matter
  let A : Algebra Call RuleTree := { treeAlgebra with not := fun t => t }
  have hom : Hom ruleAlgebra A RuleExpr.toTree :=
    ⟨fun _ _ => rfl, fun _ _ => rfl, fun _ => rfl, fun _ => rfl⟩
  have hparse : parse ruleGrammar A toks = .ok e.toTree := by
    rw [parse_map ruleGrammar hom, h]
    rfl
  have href : Refines ruleGrammar envGrammar A treeAlgebra :=
    { isOr := fun _ => rfl, isAnd := fun _ => rfl, isOpen := fun _ => rfl, isClose := fun _ => rfl
      isNot := fun _ => rfl
      open_isNot := by
        intro t ht
        obtain rfl : t = .lparen := by simpa [ruleGrammar] using ht
        rfl
      leaf := fun t rest r hr => parseEnvCall_of_parseRuleCall hr
      or := fun _ _ => rfl, and := fun _ _ => rfl, build := fun _ => rfl }
  rw [envTree, lexEnvelope_of_lexRule htoks]
  exact parse_refines href hparse

variable {q : HttpRequest}

theorem Call.readsAs_of_holds {c : Call}
    (h : c.holds (fun args => ∃ a ∈ args, matchTraefikHost a q.host = true) q.toRequest) :
    c.readsAs (fun _ : Unit => q)
      (fun c _ => c.holds (fun args => ∃ a ∈ args, matchTraefikHost a q.host = true) q.toRequest)
      () := by
  unfold Call.readsAs
  split
  · rename_i hc
    rwa [Call.holds, if_pos hc.1] at h
  split
  · rename_i hc
    rw [Call.holds, hc.1, if_neg (by decide), if_neg (by decide), if_pos rfl] at h
    exact ⟨q.path, h, rfl⟩
  split
  · rename_i hc
    rwa [Call.holds, hc.1, if_neg (by decide), if_neg (by decide), if_neg (by decide),
      if_pos rfl] at h
  · exact h

theorem RuleExpr.reads_toTree {e : RuleExpr} (h : e.reads q.toRequest) :
    e.toTree.reads (fun _ : Unit => q)
      (fun c _ => c.holds (fun args => ∃ a ∈ args, matchTraefikHost a q.host = true) q.toRequest)
      () := by
  induction e with
  | or l r ihl ihr => exact h.imp ihl ihr
  | and l r ihl ihr => exact ⟨ihl h.1, ihr h.2⟩
  | fn c => exact Call.readsAs_of_holds h

/-- The envelope covers the strict reading of an accepted rule. -/
theorem ruleEnvelope_of_reads {e : RuleExpr} (he : ruleTree rule = .ok e)
    (h : e.reads q.toRequest) : Matched q.toRequest (ruleEnvelope rule) := by
  have ht := envTree_of_ruleTree he
  exact ruleEnvelope_covers ht (RuleExpr.reads_toTree h) (trimSpace_ne_nil_of_envTree ht)

/-! ### The shape of extracted matchers -/

/-- What extraction puts into a service: an emitted pattern, and listener names only from a router's
label, with the router's priority. -/
structure Matcher.Formed (opts : ExtractOptions) (m : Matcher) : Prop where
  emitted : m.Emitted
  names : m.listenerNames = [] ∨ opts.traefikLabels = true ∧ m.priority ≠ 0 ∧
    ∃ label, m.listenerNames = splitNames label

theorem splitNames_names {v n : Bytes} (h : n ∈ splitNames v) : n ≠ [] ∧ ch ',' ∉ n := by
  simp only [splitNames, List.mem_filter, List.mem_map, decide_eq_true_eq] at h
  obtain ⟨⟨w, hw, rfl⟩, hne⟩ := h
  exact ⟨hne, fun hc => not_mem_of_mem_split hw (mem_of_mem_trimSpace hc)⟩

theorem normalizeMatcher_listenerNames (m : Matcher) :
    (normalizeMatcher m).listenerNames = m.listenerNames := by
  simp only [normalizeMatcher]
  split_ifs <;> rfl

theorem normalizeMatcher_peers (m : Matcher) : (normalizeMatcher m).peerIPCIDRs = [] := rfl

variable {ms : List Matcher} {m : Matcher}

theorem envelopeOf_emitted (h : ∀ m ∈ ms, m.Emitted) : ∀ m ∈ envelopeOf ms, m.Emitted := by
  intro m hm
  obtain ⟨m', hm', rfl⟩ := mem_envelopeOf hm
  exact normalizeMatcher_emitted (h m' hm')

theorem conjsToMatchers_unstamped {cs : List Conj} (h : conjsToMatchers cs = .ok ms) :
    ∀ m ∈ ms, m.listenerNames = [] ∧ m.middlewares = [] := by
  intro m hm
  rw [conjsToMatchers_ok h] at hm
  obtain ⟨c, _, hm⟩ := List.mem_flatMap.1 hm
  obtain ⟨s, _, rfl⟩ := List.mem_map.1 hm
  simp only [Conj.matcher]
  split <;> exact ⟨rfl, rfl⟩

theorem parseRule_conjs (h : parseRule rule = .ok ms) : ∃ cs, conjsToMatchers cs = .ok ms := by
  unfold parseRule at h
  split at h
  · cases h
  · split at h
    · cases h
    · exact ⟨_, h⟩

/-- What the two readers of a rule return: emitted matchers without listener names and middleware. -/
structure Matcher.Unstamped (m : Matcher) : Prop where
  emitted : m.Emitted
  names : m.listenerNames = []
  middlewares : m.middlewares = []

theorem parseRule_unstamped (h : parseRule rule = .ok ms) : ∀ m ∈ ms, m.Unstamped := by
  obtain ⟨cs, hcs⟩ := parseRule_conjs h
  intro m hm
  obtain ⟨hnames, hmws⟩ := conjsToMatchers_unstamped hcs m hm
  exact ⟨conjsToMatchers_emitted hcs m hm, hnames, hmws⟩

theorem envelopeOf_unstamped (h : ∀ m ∈ ms, m.Unstamped) : ∀ m ∈ envelopeOf ms, m.Unstamped := by
  intro m hm
  obtain ⟨m', hm', rfl⟩ := mem_envelopeOf hm
  refine ⟨normalizeMatcher_emitted (h m' hm').emitted, ?_, rfl⟩
  rw [normalizeMatcher_listenerNames]
  exact (h m' hm').names

theorem globalEnvelope_unstamped : ∀ m ∈ globalEnvelope, m.Unstamped := by
  intro m hm
  rw [globalEnvelope, List.mem_singleton] at hm
  subst hm
  exact ⟨emitted_of_statutePathKind (by simp) rfl, rfl, rfl⟩

theorem ruleEnvelope_unstamped (rule : Bytes) : ∀ m ∈ ruleEnvelope rule, m.Unstamped := by
  have hconjs : ∀ cs ms, conjsToMatchers cs = .ok ms → ∀ m ∈ envelopeOf ms, m.Unstamped := by
    intro cs ms hms
    refine envelopeOf_unstamped fun m hm => ?_
    obtain ⟨hnames, hmws⟩ := conjsToMatchers_unstamped hms m hm
    exact ⟨conjsToMatchers_emitted hms m hm, hnames, hmws⟩
  unfold ruleEnvelope
  split
  · simp
  · split
    · exact globalEnvelope_unstamped
    · unfold renderEnvelope
      split
      · rename_i ms hms
        exact hconjs _ ms hms
      · split
        · rename_i ms hms
          exact hconjs _ ms hms
        · exact globalEnvelope_unstamped

/-! ### Stamping -/

/-- The listener names the router's matchers end up with: none when its priority is unreadable. -/
def TraefikRouter.stamp (r : TraefikRouter) : List Bytes :=
  if r.effectivePriority = none then [] else r.declared

variable {r : TraefikRouter}

theorem constraints_spec (h : ∀ m ∈ ms, m.Unstamped) :
    ∀ m ∈ (traefikRouterConstraints r ms).1,
      m.listenerNames = r.stamp ∧ m.Emitted := by
  intro m hm
  unfold traefikRouterConstraints at hm
  unfold TraefikRouter.stamp
  split at hm
  · rename_i hnone
    rw [if_pos hnone]
    exact ⟨(h m hm).names, (h m hm).emitted⟩
  · rename_i p hp
    obtain ⟨m', hm', rfl⟩ := List.mem_map.1 hm
    rw [if_neg (by simp [hp])]
    exact ⟨rfl, (h m' hm').emitted⟩

/-- Stamping keeps what a list matches. -/
theorem constraints_matched {q : Request} (h : Matched q ms) :
    Matched q (traefikRouterConstraints r ms).1 := by
  obtain ⟨m, hm, hq⟩ := h
  unfold traefikRouterConstraints
  split
  · exact ⟨m, hm, hq⟩
  · exact ⟨_, List.mem_map.2 ⟨m, hm, rfl⟩, hq⟩

/-! ### What a router leaves -/

/-- What an extraction leaves of a router: a tombstone that matches the request under the router's
listener names, or all its routes in services. -/
def Extraction.Leaves (x : Extraction) (r : TraefikRouter) (q : Request) : Prop :=
  (∃ m ∈ x.tombstones, m.matches q.host q.path = true ∧ m.listenerNames = r.stamp) ∨
    r.effectivePriority ≠ none ∧ ∃ ms, parseRule r.rule = .ok ms ∧
      ∀ m ∈ (traefikRouterConstraints r ms).1, ∃ svc ∈ x.services, ∃ names,
        { m with middlewares := names } ∈ svc.routes

/-- Every tombstone is emitted, and every route is formed. -/
structure Extraction.Formed (opts : ExtractOptions) (x : Extraction) : Prop where
  tombstones : ∀ m ∈ x.tombstones, m.Emitted
  routes : ∀ svc ∈ x.services, ∀ m ∈ svc.routes, m.Formed opts

variable {opts : ExtractOptions}

theorem Extraction.formed_empty : ({} : Extraction).Formed opts :=
  ⟨fun _ h => absurd h (by simp), fun _ h => absurd h (by simp)⟩

theorem refuseRouter_leaves {parsed env : List Matcher} {q : Request}
    (henv : ∀ m ∈ (traefikRouterConstraints r env).1, m.listenerNames = r.stamp)
    (h : Matched q env) : (refuseRouter r parsed env).Leaves r q := by
  obtain ⟨m, hm, hq⟩ := constraints_matched (r := r) h
  exact Or.inl ⟨m, hm, hq, henv m hm⟩

/-- Restamping matchers that carry the stamp, or an envelope of such matchers, changes nothing. -/
theorem constraints_stamped {p : ℤ} (hp : r.effectivePriority = some p) :
    ∀ m ∈ (traefikRouterConstraints r ms).1, m.listenerNames = r.stamp := by
  intro m hm
  simp only [traefikRouterConstraints, hp, List.mem_map] at hm
  obtain ⟨m', _, rfl⟩ := hm
  rw [TraefikRouter.stamp, if_neg (by simp [hp])]

theorem constraints_emitted (h : ∀ m ∈ ms, m.Emitted) :
    ∀ m ∈ (traefikRouterConstraints r ms).1, m.Emitted := by
  intro m hm
  unfold traefikRouterConstraints at hm
  split at hm
  · exact h m hm
  · obtain ⟨m', hm', rfl⟩ := List.mem_map.1 hm
    exact h m' hm'

theorem effectivePriority_ne_zero {p : ℤ} (hnb : trimSpace r.rule ≠ [])
    (hp : r.effectivePriority = some p) : p ≠ 0 := by
  have hlen : (r.rule.length : ℤ) ≠ 0 := by
    rw [Int.natCast_ne_zero, ne_eq, List.length_eq_zero_iff]
    intro hnil
    exact hnb (by rw [hnil]; rfl)
  unfold TraefikRouter.effectivePriority at hp
  split at hp
  · exact Option.some.inj hp ▸ hlen
  · obtain ⟨n, _, rfl⟩ := Option.map_eq_some_iff.1 hp
    split
    · exact hlen
    · assumption

theorem constraints_formed (ht : opts.traefikLabels = true) {p : ℤ} (hnb : trimSpace r.rule ≠ [])
    (hp : r.effectivePriority = some p) (h : ∀ m ∈ ms, m.Emitted) :
    ∀ m ∈ (traefikRouterConstraints r ms).1, m.Formed opts := by
  intro m hm
  refine ⟨constraints_emitted h m hm, Or.inr ⟨ht, ?_⟩⟩
  simp only [traefikRouterConstraints, hp, List.mem_map] at hm
  obtain ⟨m', _, rfl⟩ := hm
  exact ⟨effectivePriority_ne_zero hnb hp, r.entrypoints, rfl⟩

theorem mem_stampMiddlewares {mws : Bytes} (h : m ∈ stampMiddlewares ms mws) :
    ∃ m' ∈ ms, ∃ names, m = { m' with middlewares := names } := by
  unfold stampMiddlewares at h
  split at h
  · exact ⟨m, h, m.middlewares, rfl⟩
  · obtain ⟨m', hm', rfl⟩ := List.mem_map.1 h
    exact ⟨m', hm', _, rfl⟩

theorem stampMiddlewares_formed {mws : Bytes} (h : ∀ m ∈ ms, m.Formed opts) :
    ∀ m ∈ stampMiddlewares ms mws, m.Formed opts := by
  intro m hm
  obtain ⟨m', hm', names, rfl⟩ := mem_stampMiddlewares hm
  exact ⟨(h m' hm').emitted, (h m' hm').names⟩

theorem stampMiddlewares_of_mem {mws : Bytes} (hm : m ∈ ms) :
    ∃ names, { m with middlewares := names } ∈ stampMiddlewares ms mws := by
  unfold stampMiddlewares
  split
  · exact ⟨m.middlewares, hm⟩
  · exact ⟨_, List.mem_map.2 ⟨m, hm, rfl⟩⟩

variable (c : Container) (services : List (Bytes × TraefikService))

/-- The three outcomes of binding a router with a non-blank rule: the envelope of a rule that does
not parse, the unstamped envelope of one with an unreadable priority, and for the others a refusal or
a service, both made from the stamped matchers. -/
theorem bindTraefikRouter_cases (ip : Bytes) (bound : List Bytes) (hnb : trimSpace r.rule ≠ []) :
    (∃ e, parseRule r.rule = .error e ∧
        bindTraefikRouter c r services ip bound = refuseRouter r [] (ruleEnvelope r.rule)) ∨
      ∃ ms, parseRule r.rule = .ok ms ∧
        ((r.effectivePriority = none ∧
            bindTraefikRouter c r services ip bound = refuseRouter r [] (envelopeOf ms)) ∨
          ∃ p mws, r.effectivePriority = some p ∧
            ((∃ parsed, bindTraefikRouter c r services ip bound =
                refuseRouter r parsed
                  (envelopeOf (stampMiddlewares (traefikRouterConstraints r ms).1 mws))) ∨
              ∃ svc, bindTraefikRouter c r services ip bound = { services := [svc] } ∧
                svc.routes = stampMiddlewares (traefikRouterConstraints r ms).1 mws)) := by
  have hnil : ∀ ms : List Matcher, stampMiddlewares ms [] = ms := fun ms => by
    rw [stampMiddlewares, if_pos (by decide)]
  unfold bindTraefikRouter
  rw [if_neg hnb]
  cases hparse : parseRule r.rule with
  | error e => exact Or.inl ⟨e, rfl, rfl⟩
  | ok ms =>
    refine Or.inr ⟨ms, rfl, ?_⟩
    cases hp : r.effectivePriority with
    | none => exact Or.inl ⟨rfl, by simp [traefikRouterConstraints, hp]⟩
    | some p =>
      right
      have hflag : (traefikRouterConstraints r ms).2 = true := by
        simp [traefikRouterConstraints, hp]
      rcases hc : traefikRouterConstraints r ms with ⟨stamped, ok⟩
      rw [hc] at hflag
      obtain rfl : ok = true := hflag
      simp only [hc]
      split
      · exact ⟨p, [], rfl, Or.inl ⟨_, by rw [hnil]⟩⟩
      · refine ⟨p, r.middlewares, rfl, ?_⟩
        split
        · exact Or.inl ⟨_, rfl⟩
        · split
          · exact Or.inl ⟨_, rfl⟩
          · split
            · exact Or.inr ⟨_, rfl, rfl⟩
            · split
              · exact Or.inl ⟨_, rfl⟩
              · exact Or.inr ⟨_, rfl, rfl⟩

theorem bindTraefikRouter_blank {c : Container} {services : List (Bytes × TraefikService)}
    {ip : Bytes} {bound : List Bytes} (hb : trimSpace r.rule = []) :
    bindTraefikRouter c r services ip bound = {} := by
  rw [bindTraefikRouter, if_pos hb]

theorem bindTraefikRouter_formed (ht : opts.traefikLabels = true) (r : TraefikRouter)
    (services : List (Bytes × TraefikService)) (ip : Bytes) (bound : List Bytes) :
    (bindTraefikRouter c r services ip bound).Formed opts := by
  have hrefuse : ∀ parsed env, (∀ m ∈ env, m.Emitted) → (refuseRouter r parsed env).Formed opts :=
    fun parsed env h => ⟨constraints_emitted h, fun _ hs => absurd hs (by simp [refuseRouter])⟩
  by_cases hb : trimSpace r.rule = []
  · rw [bindTraefikRouter_blank hb]
    exact Extraction.formed_empty
  rcases bindTraefikRouter_cases c services ip bound hb with
    ⟨e, _, heq⟩ | ⟨ms, hms, ⟨_, heq⟩ | ⟨p, mws, hp, ⟨parsed, heq⟩ | ⟨svc, heq, hroutes⟩⟩⟩
  · rw [heq]
    exact hrefuse _ _ fun m hm => (ruleEnvelope_unstamped _ m hm).emitted
  · rw [heq]
    exact hrefuse _ _ (envelopeOf_emitted fun m hm => (parseRule_unstamped hms m hm).emitted)
  all_goals
    have hformed : ∀ m ∈ stampMiddlewares (traefikRouterConstraints r ms).1 mws, m.Formed opts :=
      stampMiddlewares_formed
        (constraints_formed ht hb hp fun m hm => (parseRule_unstamped hms m hm).emitted)
    rw [heq]
  · exact hrefuse _ _ (envelopeOf_emitted fun m hm => (hformed m hm).emitted)
  · refine ⟨fun _ h => absurd h (by simp), fun s hs => ?_⟩
    rw [List.mem_singleton.1 hs, hroutes]
    exact hformed

/-! ### The meaning of a router's rule -/

/-- A space of requests with a meaning for what no reader of the rule decides: calls outside the
reader's grammar, and rules that do not parse at all. -/
structure Reading (Ω : Type) where
  req : Ω → HttpRequest
  other : Call → Ω → Prop
  unparsed : Bytes → Ω → Prop

/-- The request matches the rule: by the strict reading when the rule is accepted, else by the
reading of its envelope tree, else by whatever the rule means.  Irreducible, so that checking a
statement about a fixed rule does not run its parser. -/
@[irreducible]
def Reading.matches {Ω : Type} (R : Reading Ω) (rule : Bytes) (w : Ω) : Prop :=
  match parseRule rule with
  | .ok _ => ∃ e, ruleTree rule = .ok e ∧ e.reads (R.req w).toRequest
  | .error _ =>
    match envTree rule with
    | .ok t => t.reads R.req R.other w
    | .error _ => R.unparsed rule w

section Coverage

variable {Ω : Type} {R : Reading Ω} {w : Ω}

/-- The tolerant envelope covers a rule's meaning, accepted or not. -/
theorem ruleEnvelope_matched {rule : Bytes} (hnb : trimSpace rule ≠ []) (h : R.matches rule w) :
    Matched (R.req w).toRequest (ruleEnvelope rule) := by
  unfold Reading.matches at h
  split at h
  · obtain ⟨e, he, hr⟩ := h
    exact ruleEnvelope_of_reads he hr
  · split at h
    · rename_i t ht
      exact ruleEnvelope_covers ht h hnb
    · rename_i err ht
      rw [ruleEnvelope_of_not_parsed hnb fun t h => by simp [ht] at h]
      exact globalEnvelope_matched _

/-- **A bound or refused router leaves its traffic**, if the envelope of an accepted rule has it. -/
theorem bindTraefikRouter_leaves (c : Container) {r : TraefikRouter}
    (services : List (Bytes × TraefikService)) (ip : Bytes) (bound : List Bytes)
    (hnb : trimSpace r.rule ≠ []) (h : R.matches r.rule w)
    (hms : ∀ ms, parseRule r.rule = .ok ms → Matched (R.req w).toRequest (envelopeOf ms)) :
    (bindTraefikRouter c r services ip bound).Leaves r (R.req w).toRequest := by
  rcases bindTraefikRouter_cases c services ip bound hnb with
    ⟨e, _, heq⟩ | ⟨ms, hparse, ⟨_, heq⟩ | ⟨p, mws, hp, hout⟩⟩
  · rw [heq]
    refine refuseRouter_leaves (fun m hm => ?_) (ruleEnvelope_matched hnb h)
    exact (constraints_spec (ruleEnvelope_unstamped _) m hm).1
  · rw [heq]
    refine refuseRouter_leaves (fun m hm => ?_) (hms ms hparse)
    exact (constraints_spec (envelopeOf_unstamped (parseRule_unstamped hparse)) m hm).1
  · rcases hout with ⟨parsed, heq⟩ | ⟨svc, heq, hroutes⟩
    · rw [heq]
      have hemitted := fun m hm => (parseRule_unstamped hparse m hm).emitted
      refine refuseRouter_leaves (constraints_stamped hp)
        ((matched_envelopeOf_iff fun m hm => ?_).2 ?_)
      · obtain ⟨m', hm', names, rfl⟩ := mem_stampMiddlewares hm
        exact (constraints_emitted hemitted m' hm').compiled
      -- the stamps are not part of what is compared
      obtain ⟨m, hm, hq⟩ := (matched_envelopeOf_iff fun m hm => (hemitted m hm).compiled).1
        (hms ms hparse)
      have hstamped : { m with priority := p, listenerNames := r.declared } ∈
          (traefikRouterConstraints r ms).1 := by
        simp only [traefikRouterConstraints, hp]
        exact List.mem_map.2 ⟨m, hm, rfl⟩
      obtain ⟨names, hmem⟩ := stampMiddlewares_of_mem hstamped
      exact ⟨_, hmem, (normalizeMatcher_matches_congr _ m (by rfl) _ _).trans hq⟩
    · refine Or.inr ⟨by simp [hp], ms, hparse, fun m hm => ?_⟩
      obtain ⟨names, hmem⟩ := stampMiddlewares_of_mem hm
      rw [heq]
      exact ⟨svc, List.mem_singleton.2 rfl, names, hroutes ▸ hmem⟩

end Coverage

/-! ### The router loop -/

def HasRoute (out : List (Bytes × Service)) (m : Matcher) : Prop := ∃ e ∈ out, m ∈ e.2.routes

variable {out : List (Bytes × Service)}

theorem addTraefikService_hasRoute {svc : Service} :
    HasRoute (addTraefikService out svc) m ↔ HasRoute out m ∨ m ∈ svc.routes := by
  unfold addTraefikService HasRoute
  split
  · rename_i hsome
    constructor
    · rintro ⟨e, he, hm⟩
      obtain ⟨e', he', rfl⟩ := List.mem_map.1 he
      split at hm
      · rcases List.mem_append.1 hm with hm | hm
        · exact Or.inl ⟨e', he', hm⟩
        · exact Or.inr hm
      · exact Or.inl ⟨e', he', hm⟩
    · rintro (⟨e, he, hm⟩ | hm)
      · refine ⟨_, List.mem_map.2 ⟨e, he, rfl⟩, ?_⟩
        split
        · exact List.mem_append_left _ hm
        · exact hm
      · obtain ⟨v, hv⟩ := Option.isSome_iff_exists.1 hsome
        have hmem := mem_of_lookup hv
        refine ⟨_, List.mem_map.2 ⟨_, hmem, rfl⟩, ?_⟩
        rw [if_pos rfl]
        exact List.mem_append_right _ hm
  · simp only [List.mem_append, List.mem_singleton, or_and_right, exists_or, exists_eq_left]

theorem foldl_addTraefikService_hasRoute {svcs : List Service} :
    HasRoute (svcs.foldl addTraefikService out) m ↔ HasRoute out m ∨ ∃ svc ∈ svcs, m ∈ svc.routes := by
  induction svcs generalizing out with
  | nil => simp
  | cons svc rest ih =>
    rw [List.foldl_cons, ih, addTraefikService_hasRoute]
    simp only [List.mem_cons, or_and_right, exists_or, exists_eq_left, or_assoc]

/-- The loop keeps what it has and adds what each router gives. -/
theorem bindRouters_spec (ip : Bytes) (bound : List Bytes) (rs : List TraefikRouter)
    (out : List (Bytes × Service)) (acc : Extraction) :
    (∀ m, HasRoute (bindRouters c services ip bound out acc rs).1 m ↔
      HasRoute out m ∨ ∃ r ∈ rs, ∃ svc ∈ (bindTraefikRouter c r services ip bound).services,
        m ∈ svc.routes) ∧
    (∀ m, m ∈ (bindRouters c services ip bound out acc rs).2.tombstones ↔
      m ∈ acc.tombstones ∨ ∃ r ∈ rs, m ∈ (bindTraefikRouter c r services ip bound).tombstones) := by
  induction rs generalizing out acc with
  | nil => simp [bindRouters]
  | cons r rest ih =>
    rw [bindRouters]
    obtain ⟨h1, h2⟩ := ih ((bindTraefikRouter c r services ip bound).services.foldl
      addTraefikService out)
      { acc with
        tombstones := acc.tombstones ++ (bindTraefikRouter c r services ip bound).tombstones
        rejections := acc.rejections ++ (bindTraefikRouter c r services ip bound).rejections }
    constructor
    · intro m
      rw [h1, foldl_addTraefikService_hasRoute]
      simp only [List.mem_cons, or_and_right, exists_or, exists_eq_left, or_assoc]
    · intro m
      rw [h2]
      simp only [List.mem_append, List.mem_cons, or_and_right, exists_or, exists_eq_left, or_assoc]

theorem traefikContribution_routes {c : Container} {name ip : Bytes} {ts : TraefikService}
    {svc : Service} (h : traefikContribution c name ts ip = some svc) : svc.routes = [] := by
  simp only [traefikContribution] at h
  split_ifs at h
  all_goals
    rw [← Option.some.inj h]

theorem addReferenced_hasRoute {c : Container} {ip : Bytes} {rest : List (Bytes × TraefikService)} :
    HasRoute (addReferencedTraefikServices c opts ip out rest) m ↔ HasRoute out m := by
  induction rest generalizing out with
  | nil => rfl
  | cons e rest ih =>
    obtain ⟨name, ts⟩ := e
    simp only [addReferencedTraefikServices]
    split
    · exact ih
    · split
      · exact ih
      · rename_i svc hsvc
        rw [ih, HasRoute, HasRoute]
        simp only [List.mem_append, List.mem_singleton, or_and_right, exists_or, exists_eq_left,
          traefikContribution_routes hsvc, List.not_mem_nil, or_false]

/-! ### One container -/

theorem extractTraefik_formed (ht : opts.traefikLabels = true) :
    (extractTraefik c opts).Formed opts := by
  unfold extractTraefik
  split
  · exact Extraction.formed_empty
  dsimp only
  split
  · split
    · refine ⟨fun m hm => ?_, fun _ h => absurd h (by simp [traefikTombstones])⟩
      obtain ⟨r, _, hm⟩ := List.mem_flatMap.1 hm
      exact (constraints_spec (ruleEnvelope_unstamped _) m hm).2
    · exact Extraction.formed_empty
  · set ip := if c.running then containerIP c (c.label (lit "traefik.docker.network")) opts else []
    obtain ⟨hroutes, htombs⟩ :=
      bindRouters_spec c (collectTraefikLabels c).2 ip opts.boundServices c.routers [] {}
    refine ⟨fun m hm => ?_, fun svc hsvc m hm => ?_⟩
    · obtain ⟨r, _, hm⟩ := ((htombs m).1 hm).resolve_left (by simp)
      exact (bindTraefikRouter_formed c ht r _ ip _).tombstones m hm
    · obtain ⟨e, he, rfl⟩ := List.mem_map.1 hsvc
      have hroute := addReferenced_hasRoute.1 ⟨e, mem_sortedEntries.1 he, hm⟩
      obtain ⟨r, _, svc, hs, hm⟩ := ((hroutes m).1 hroute).resolve_left (by simp [HasRoute])
      exact (bindTraefikRouter_formed c ht r _ ip _).routes svc hs m hm

/-- The shape of native matchers: a statute pattern, a host where one is compared, no peers, no
listener names, no priority. -/
structure Matcher.Native (m : Matcher) : Prop where
  host : m.hostKind = .any ↔ m.host = []
  kind : m.pathKind = statutePathKind m.path
  peers : m.peerIPCIDRs = []
  names : m.listenerNames = []
  priority : m.priority = 0

theorem Matcher.Native.emitted (h : m.Native) : m.Emitted :=
  emitted_of_statutePathKind h.host h.kind

theorem namedRouteField_native {field v : Bytes} (h : m.Native) :
    (namedRouteField field v m).Native := by
  simp only [namedRouteField]
  split
  · refine ⟨?_, h.kind, h.peers, h.names, h.priority⟩
    dsimp only
    split
    · rename_i hnil
      simp [hnil]
    · rename_i hne
      simp [hne]
  · split
    · exact ⟨h.host, rfl, h.peers, h.names, h.priority⟩
    · exact h

theorem collectNamedRoutes_native {labels : List (Bytes × Bytes)} {extra : List (Bytes × Matcher)}
    (h : ∀ e ∈ extra, e.2.Native) : ∀ e ∈ collectNamedRoutes extra labels, e.2.Native := by
  induction labels generalizing extra with
  | nil => exact h
  | cons kv rest ih =>
    obtain ⟨k, v⟩ := kv
    simp only [collectNamedRoutes]
    split
    · exact ih h
    · split
      · exact ih h
      · refine ih fun e he => ?_
        rcases mem_upsert he with he | ⟨_, m, hm, he⟩
        · exact h e he
        · rw [he]
          refine namedRouteField_native ?_
          rcases hm with rfl | hm
          · exact ⟨by decide, by decide, rfl, rfl, rfl⟩
          · exact h _ hm

theorem hostRoutes_native {hosts : List Bytes} (hne : ∀ h ∈ hosts, h ≠ []) (path : Bytes) :
    ∀ m ∈ hostRoutes hosts path, m.Native := by
  intro m hm
  unfold hostRoutes at hm
  split at hm
  · rw [List.mem_singleton.1 hm]
    exact ⟨by simp, rfl, rfl, rfl, rfl⟩
  · obtain ⟨h, hh, rfl⟩ := List.mem_map.1 hm
    exact ⟨by simp [toLower_eq_nil, hne h hh], rfl, rfl, rfl, rfl⟩

theorem nativeRoutes_native : ∀ m ∈ nativeRoutes c, m.Native := by
  intro m hm
  rcases List.mem_append.1 hm with hm | hm
  · exact hostRoutes_native (fun h hh => (splitNames_names hh).1) _ m hm
  · obtain ⟨e, he, rfl⟩ := List.mem_map.1 hm
    exact collectNamedRoutes_native (by simp) e (mem_sortedEntries.1 he)

theorem nativeRoutes_emitted : ∀ m ∈ nativeRoutes c, m.Emitted :=
  fun m hm => (nativeRoutes_native c m hm).emitted

theorem refuseNative_formed : (refuseNative c).Formed opts := by
  unfold refuseNative
  split
  · exact ⟨envelopeOf_emitted (nativeRoutes_emitted c), fun _ h => absurd h (by simp)⟩
  · exact Extraction.formed_empty

theorem extractNative_formed : (extractNative c opts).Formed opts := by
  simp only [extractNative]
  split
  · split
    · exact refuseNative_formed c
    · exact Extraction.formed_empty
  · split
    · exact Extraction.formed_empty
    · split
      · exact refuseNative_formed c
      · refine ⟨fun _ h => absurd h (by simp), fun svc hsvc m hm => ?_⟩
        rw [List.mem_singleton.1 hsvc] at hm
        obtain ⟨m', hm', rfl⟩ := List.mem_map.1 hm
        exact ⟨nativeRoutes_emitted c m' hm', Or.inl (nativeRoutes_native c m' hm').names⟩

/-- **Extracted matchers are formed.** -/
theorem extractWithRejections_formed (opts : ExtractOptions) :
    (extractWithRejections c opts).Formed opts := by
  have hn : (extractNative c opts).Formed opts := extractNative_formed c
  have ht : (if opts.traefikLabels then extractTraefik c opts else {} : Extraction).Formed opts := by
    split
    · exact extractTraefik_formed c ‹_›
    · exact Extraction.formed_empty
  refine ⟨fun m hm => ?_, fun svc hsvc => ?_⟩
  · exact (List.mem_append.1 hm).elim (hn.tombstones m) (ht.tombstones m)
  · exact (List.mem_append.1 hsvc).elim (hn.routes svc) (ht.routes svc)

/-- **A native registration leaves its traffic.** -/
theorem extractNative_leaves {c : Container}
    (hlabels : hasPrefixedLabels c.labels statutePrefix = true)
    (hcand : nativeCandidate c opts = true) (hm : m ∈ nativeRoutes c)
    (hq : m.matches q.host q.path = true) :
    (∃ t ∈ (extractWithRejections c opts).tombstones, t.matches q.host q.path = true ∧
        t.listenerNames = []) ∨
      ∃ svc ∈ (extractWithRejections c opts).services, ∃ hints,
        { m with hints := hints } ∈ svc.routes := by
  have hrefuse : ∃ t ∈ (refuseNative c).tombstones, t.matches q.host q.path = true ∧
      t.listenerNames = [] := by
    rw [refuseNative, if_pos hlabels]
    obtain ⟨m', hm', hq'⟩ := envelopeOf_covers
      (fun m hm => (nativeRoutes_emitted c m hm).compiled) (q := q) ⟨m, hm, hq⟩
    refine ⟨m', hm', hq', ?_⟩
    obtain ⟨m'', hm'', rfl⟩ := mem_envelopeOf hm'
    rw [normalizeMatcher_listenerNames]
    exact (nativeRoutes_native c m'' hm'').names
  have hleaves : (∃ t ∈ (extractNative c opts).tombstones, t.matches q.host q.path = true ∧
      t.listenerNames = []) ∨
      ∃ svc ∈ (extractNative c opts).services, ∃ hints, { m with hints := hints } ∈ svc.routes := by
    rw [nativeCandidate, Bool.and_eq_true, Bool.or_eq_true] at hcand
    simp only [extractNative]
    split
    · rename_i hoff
      rw [if_pos (hcand.2.resolve_left (by simpa using hoff))]
      exact Or.inl hrefuse
    · rw [if_neg (by simp [hcand.1])]
      split
      · exact Or.inl hrefuse
      · exact Or.inr ⟨_, List.mem_singleton.2 rfl, _, List.mem_map.2 ⟨m, hm, rfl⟩⟩
  rcases hleaves with ⟨t, ht, h⟩ | ⟨svc, hsvc, h⟩
  · exact Or.inl ⟨t, List.mem_append_left _ ht, h⟩
  · exact Or.inr ⟨svc, List.mem_append_left _ hsvc, h⟩

/-- **A router leaves its traffic**, whether it is bound, refused or its container's enable label
cannot be read. -/
theorem extractTraefik_leaves {c : Container} (hcand : traefikCandidate c opts = true)
    (hr : r ∈ c.routers) (hnb : trimSpace r.rule ≠ []) {Ω : Type} {R : Reading Ω} {w : Ω}
    (h : R.matches r.rule w)
    (hms : ∀ ms, parseRule r.rule = .ok ms → Matched (R.req w).toRequest (envelopeOf ms)) :
    (extractWithRejections c opts).Leaves r (R.req w).toRequest := by
  simp only [traefikCandidate, Bool.and_eq_true, Bool.or_eq_true] at hcand
  have hleaves : (extractTraefik c opts).Leaves r (R.req w).toRequest := by
    simp only [extractTraefik]
    rw [if_neg (by simp [hcand.1.2])]
    split
    · rename_i hoff
      rw [if_pos (hcand.2.resolve_left (by simpa using hoff))]
      obtain ⟨m, hm, hq⟩ := constraints_matched (r := r) (ruleEnvelope_matched hnb h)
      refine Or.inl ⟨m, List.mem_flatMap.2 ⟨r, hr, hm⟩, hq, ?_⟩
      exact (constraints_spec (ruleEnvelope_unstamped _) m hm).1
    · set ip := if c.running then containerIP c (c.label (lit "traefik.docker.network")) opts else []
      obtain ⟨hroutes, htombs⟩ :=
        bindRouters_spec c (collectTraefikLabels c).2 ip opts.boundServices c.routers [] {}
      rcases bindTraefikRouter_leaves c (collectTraefikLabels c).2 ip opts.boundServices hnb h hms with
        ⟨m, hm, hq⟩ | ⟨hp, ms, hparse, hall⟩
      · exact Or.inl ⟨m, (htombs m).2 (Or.inr ⟨r, hr, hm⟩), hq⟩
      · refine Or.inr ⟨hp, ms, hparse, fun m hm => ?_⟩
        obtain ⟨svc, hsvc, names, hmem⟩ := hall m hm
        obtain ⟨e, he, hm'⟩ :=
          addReferenced_hasRoute.2 ((hroutes _).2 (Or.inr ⟨r, hr, svc, hsvc, hmem⟩))
        exact ⟨e.2, List.mem_map.2 ⟨e, mem_sortedEntries.2 he, rfl⟩, names, hm'⟩
  simp only [extractWithRejections, hcand.1.1, if_true]
  rcases hleaves with ⟨m, hm, h⟩ | ⟨hp, ms, hparse, hall⟩
  · exact Or.inl ⟨m, List.mem_append_right _ hm, h⟩
  · refine Or.inr ⟨hp, ms, hparse, fun m hm => ?_⟩
    obtain ⟨svc, hsvc, h⟩ := hall m hm
    exact ⟨svc, List.mem_append_right _ hsvc, h⟩

/-! ### Claims of a quarantined container -/

/-- The claims of a candidate container name its routers' traffic. -/
theorem traefikRouteClaims_leaves {c : Container} (hcand : traefikCandidate c opts = true)
    (hr : r ∈ c.routers) (hnb : trimSpace r.rule ≠ []) {Ω : Type} {R : Reading Ω} {w : Ω}
    (h : R.matches r.rule w) :
    ∃ k ∈ routeClaims c opts, k.matcher.matches (R.req w).host (R.req w).path = true ∧
      k.matcher.peerIPCIDRs = [] ∧ k.matcher.listenerNames = r.stamp := by
  have hspec := constraints_spec (r := r) (ruleEnvelope_unstamped r.rule)
  obtain ⟨m, hm, hq⟩ := envelopeOf_covers (fun m hm => (hspec m hm).2.compiled)
    (constraints_matched (r := r) (ruleEnvelope_matched hnb h))
  have hk : ∃ k ∈ routerClaims c ((sortedEntries (collectTraefikLabels c).2).map Prod.fst) r,
      k.matcher = m := ⟨_, List.mem_map.2 ⟨m, hm, rfl⟩, rfl⟩
  obtain ⟨k, hk, rfl⟩ := hk
  obtain ⟨m', hm', heq⟩ := mem_envelopeOf hm
  refine ⟨k, List.mem_append_right _ ?_, hq, ?_, ?_⟩
  · rw [traefikRouteClaims, if_pos hcand]
    exact List.mem_flatMap.2 ⟨r, hr, hk⟩
  · rw [heq]
    rfl
  · rw [heq, normalizeMatcher_listenerNames]
    exact (hspec m' hm').1

/-- The claims of a candidate container name its native traffic. -/
theorem nativeRouteClaims_leaves {c : Container} (hcand : nativeCandidate c opts = true)
    (hm : m ∈ nativeRoutes c) (hq : m.matches q.host q.path = true) :
    ∃ k ∈ routeClaims c opts, k.matcher.matches q.host q.path = true ∧
      k.matcher.peerIPCIDRs = [] ∧ k.matcher.listenerNames = [] := by
  obtain ⟨m', hm', hq'⟩ := envelopeOf_covers
    (fun m hm => (nativeRoutes_emitted c m hm).compiled) (q := q) ⟨m, hm, hq⟩
  obtain ⟨m'', hm'', rfl⟩ := mem_envelopeOf hm'
  refine ⟨⟨nativeServiceName c, normalizeMatcher m''⟩, List.mem_append_left _ ?_, hq', rfl, ?_⟩
  · rw [nativeRouteClaims, if_pos hcand]
    exact List.mem_map.2 ⟨_, hm', rfl⟩
  · rw [normalizeMatcher_listenerNames]
    exact (nativeRoutes_native c m'' hm'').names

end Statute.Docker
