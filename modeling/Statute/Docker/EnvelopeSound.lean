import Statute.Docker.Envelope
import Statute.Docker.RuleMeaning

/-!
# Refusal envelopes cover what the rule accepts

The reader of `Statute.Docker.Envelope` cannot decide most calls of a rule.  `RuleTree` is the tree
the rule writes, with its negations, and `RuleTree.reads` its Boolean reading where every call the
reader cannot represent is an arbitrary predicate of the request.

* `envelope_covers`: at every node the conjunctions cover what the node reads, or the node is the
  top envelope;
* `envelopeOf_covers`: normalisation and absorption only widen;
* `ruleEnvelope_sound`: a request the rule accepts is matched by its envelope.
-/

namespace Statute.Docker

open Statute.Base

/-! ### The rule as written -/

/-- The tree of a rule with the operands of its negations. -/
inductive RuleTree where
  | or (left right : RuleTree)
  | and (left right : RuleTree)
  | not (operand : RuleTree)
  | fn (call : Call)
deriving DecidableEq, Repr

/-- The constructors of the full tree. -/
def treeAlgebra : Algebra Call RuleTree where
  or := .or
  and := .and
  not := .not
  leaf := .fn

/-- The tree of a rule under the envelope grammar. -/
def envTree (rule : Bytes) : Except EnvError RuleTree :=
  match lexEnvelope rule with
  | .error e => .error (.lex e)
  | .ok toks => parse envGrammar treeAlgebra toks

/-- Forget the operands of negations. -/
def RuleTree.erase : RuleTree → EnvExpr
  | .or l r => .or l.erase r.erase
  | .and l r => .and l.erase r.erase
  | .not _ => .not
  | .fn c => .fn c

/-- The deriver parses what the full tree parses, and builds its image. -/
theorem envParse_eq (rule : Bytes) : envParse rule = (envTree rule).map RuleTree.erase := by
  unfold envParse envTree
  cases lexEnvelope rule with
  | error e => rfl
  | ok toks =>
    have hom : Hom treeAlgebra envAlgebra RuleTree.erase :=
      ⟨fun _ _ => rfl, fun _ _ => rfl, fun _ => rfl, fun _ => rfl⟩
    exact parse_map envGrammar hom toks

/-- A `Host` argument the reader compares: a literal ASCII host without a wildcard. -/
def readableHost (a : Bytes) : Bool :=
  a != [] && literalArg a && !traefikHostForbidden a && isASCII a

/-- A `Path` or `PathPrefix` argument the reader compares: a rooted literal without an escape. -/
def readablePath (a : Bytes) : Bool :=
  literalArg a && hasPrefix a (lit "/") && !pathHasPercent a

section Reading

variable {Ω : Type} (req : Ω → HttpRequest) (other : Call → Ω → Prop)

/-- The reading of a call: the three matchers the reader knows, with readable arguments only, and
an arbitrary predicate for every other call. -/
def Call.readsAs (c : Call) (w : Ω) : Prop :=
  if c.name = lit "Host" ∧ c.args ≠ [] ∧ c.args.all readableHost = true then
    ∃ a ∈ c.args, matchTraefikHost a (req w).host = true
  else if c.name = lit "Path" ∧ c.args ≠ [] ∧ c.args.all readablePath = true then
    ∃ a ∈ c.args, (req w).path = a
  else if c.name = lit "PathPrefix" ∧ c.args ≠ [] ∧ c.args.all readablePath = true then
    ∃ a ∈ c.args, a <+: (req w).path
  else other c w

def RuleTree.reads (w : Ω) : RuleTree → Prop
  | .or l r => l.reads w ∨ r.reads w
  | .and l r => l.reads w ∧ r.reads w
  | .not t => ¬ t.reads w
  | .fn c => c.readsAs req other w

end Reading

/-! ### Conjunctions cover their requests -/

/-- The conjunction's hosts and path allow the request. -/
structure Conj.Covers (q : HttpRequest) (c : Conj) : Prop where
  host : c.hosts = [] ∨ ∃ h ∈ c.hosts, matchTraefikHost h q.host = true
  path : c.pathSet = true → if c.byPrefix then c.path <+: q.path else q.path = c.path

def Covered (q : HttpRequest) (cs : List Conj) : Prop := ∃ c ∈ cs, c.Covers q

theorem covered_envTop (q : HttpRequest) : Covered q envTop :=
  ⟨{}, by simp [envTop], Or.inl rfl, by simp⟩

variable {q : HttpRequest}

theorem mergeEnvConj_covers {a b : Conj} (ha : a.Covers q) (hb : b.Covers q) :
    (mergeEnvConj a b).Covers q := by
  have hout : (if a.hosts = [] then { a with hosts := b.hosts } else a).Covers q := by
    split
    · exact ⟨hb.host, ha.path⟩
    · exact ha
  simp only [mergeEnvConj]
  generalize (if a.hosts = [] then { a with hosts := b.hosts } else a) = out at hout ⊢
  -- whichever path the merge keeps, one side covers it
  split_ifs with hbs has hle
  · exact ⟨hout.host, fun _ => hb.path hbs⟩
  · exact hout
  · exact ⟨hout.host, fun _ => hb.path hbs⟩
  · exact hout

theorem coarsenInto_covers (out cs : List Conj) (hout : ∀ o ∈ out, o.pathSet = false)
    (h : Covered q out ∨ Covered q cs) : Covered q (coarsenInto out cs) := by
  induction cs generalizing out with
  | nil =>
    rcases h with h | ⟨c, hc, _⟩
    · exact h
    · cases hc
  | cons c rest ih =>
    simp only [coarsenInto]
    split
    · rename_i hdup
      refine ih out hout ?_
      rcases h with h | ⟨d, hd, hcov⟩
      · exact Or.inl h
      · rcases List.mem_cons.1 hd with rfl | hd
        · -- an earlier conjunction with the same hosts and no path stands in
          obtain ⟨o, ho, heq⟩ := List.any_eq_true.1 hdup
          rw [beq_iff_eq] at heq
          exact Or.inl ⟨o, ho, heq ▸ hcov.host, by simp [hout o ho]⟩
        · exact Or.inr ⟨d, hd, hcov⟩
    · refine ih _ ?_ ?_
      · intro o ho
        rcases List.mem_append.1 ho with ho | ho
        · exact hout o ho
        · rw [List.mem_singleton.1 ho]
      rcases h with ⟨d, hd, hcov⟩ | ⟨d, hd, hcov⟩
      · exact Or.inl ⟨d, List.mem_append_left _ hd, hcov⟩
      · rcases List.mem_cons.1 hd with rfl | hd
        · exact Or.inl ⟨_, List.mem_append_right _ (List.mem_singleton.2 rfl), hcov.host, by simp⟩
        · exact Or.inr ⟨d, hd, hcov⟩

variable {cs : List Conj}

theorem coarsenConjs_covers (h : Covered q cs) : Covered q (coarsenConjs cs) :=
  coarsenInto_covers [] cs (by simp) (Or.inr h)

theorem pairs_covers {ls rs : List Conj} (hl : Covered q ls) (hr : Covered q rs) :
    Covered q ((pairs ls rs).map (fun p => mergeEnvConj p.1 p.2)) := by
  obtain ⟨p, hp, h1, h2⟩ := (exists_pairs ls rs (Conj.Covers q) (Conj.Covers q)).2 ⟨hl, hr⟩
  exact ⟨_, List.mem_map.2 ⟨p, hp, rfl⟩, mergeEnvConj_covers h1 h2⟩

/-- A node's envelope allows the request: the node is the top, or a conjunction covers it. -/
def Allowed (q : HttpRequest) (env : List Conj × Bool) : Prop := env.2 = true ∨ Covered q env.1

theorem meetEnvelopes_allowed {ls rs : List Conj} (hl : Covered q ls) (hr : Covered q rs) :
    Allowed q (meetEnvelopes ls rs) := by
  simp only [meetEnvelopes]
  split_ifs
  · exact Or.inl rfl
  · exact Or.inr (pairs_covers (coarsenConjs_covers hl) (coarsenConjs_covers hr))
  · exact Or.inr (pairs_covers hl hr)

theorem hostLeaf_covers {args : List Bytes}
    (h : args.all readableHost = true → ∃ a ∈ args, matchTraefikHost a q.host = true) :
    Covered q (hostLeaf args) := by
  unfold hostLeaf
  split
  · exact covered_envTop q
  · rename_i hno
    refine ⟨_, List.mem_singleton.2 rfl, Or.inr (h ?_), by simp⟩
    simpa [readableHost, and_assoc] using hno

theorem pathLeaf_covers {args : List Bytes} {byPrefix : Bool} (h : args.all readablePath = true →
      ∃ a ∈ args, if byPrefix then a <+: q.path else q.path = a) :
    Covered q (pathLeaf args byPrefix) := by
  unfold pathLeaf
  split
  · exact covered_envTop q
  · rename_i hno
    have hall : args.all readablePath = true := by
      simpa [readablePath, and_assoc] using hno
    obtain ⟨a, ha, hp⟩ := h hall
    exact ⟨_, List.mem_map.2 ⟨a, ha, rfl⟩, Or.inl rfl, fun _ => hp⟩

section Reading

variable {Ω : Type} {req : Ω → HttpRequest} {other : Call → Ω → Prop} {w : Ω}

theorem callEnvelope_allowed {c : Call} (h : c.readsAs req other w) :
    Allowed (req w) (callEnvelope c) := by
  unfold callEnvelope
  split
  · exact Or.inl rfl
  rename_i hargs
  split
  · rename_i hname
    refine Or.inr (hostLeaf_covers fun hall => ?_)
    rwa [Call.readsAs, if_pos ⟨hname, hargs, hall⟩] at h
  rename_i hnhost
  split
  · rename_i hname
    refine Or.inr (pathLeaf_covers fun hall => ?_)
    rw [Call.readsAs, if_neg fun hc => hnhost hc.1, if_pos ⟨hname, hargs, hall⟩] at h
    simpa using h
  rename_i hnpath
  split
  · rename_i hname
    refine Or.inr (pathLeaf_covers fun hall => ?_)
    rw [Call.readsAs, if_neg fun hc => hnhost hc.1, if_neg fun hc => hnpath hc.1,
      if_pos ⟨hname, hargs, hall⟩] at h
    simpa using h
  · exact Or.inr (covered_envTop _)

/-- **Every node's envelope covers what the node reads.** -/
theorem envelope_covers {t : RuleTree} (h : t.reads req other w) :
    Allowed (req w) t.erase.envelope := by
  induction t with
  | or l r ihl ihr =>
    simp only [RuleTree.erase, EnvExpr.envelope]
    split
    · exact Or.inl rfl
    · rename_i hnone
      simp only [Bool.or_eq_true, not_or, Bool.not_eq_true] at hnone
      right
      rcases h with h | h
      · obtain ⟨c, hc, hcov⟩ := (ihl h).resolve_left (by simp [hnone.1])
        exact ⟨c, List.mem_append_left _ hc, hcov⟩
      · obtain ⟨c, hc, hcov⟩ := (ihr h).resolve_left (by simp [hnone.2])
        exact ⟨c, List.mem_append_right _ hc, hcov⟩
  | and l r ihl ihr =>
    have hl := ihl h.1
    have hr := ihr h.2
    simp only [RuleTree.erase, EnvExpr.envelope]
    rcases hle : l.erase.envelope with ⟨ls, lg⟩
    rcases hre : r.erase.envelope with ⟨rs, rg⟩
    rw [hle] at hl
    rw [hre] at hr
    cases lg with
    | true =>
      cases rg with
      | true => exact Or.inl rfl
      | false => exact hr
    | false =>
      cases rg with
      | true => exact hl
      | false =>
        exact meetEnvelopes_allowed (hl.resolve_left (by simp)) (hr.resolve_left (by simp))
  | not t _ => exact Or.inr (covered_envTop _)
  | fn c => exact callEnvelope_allowed h

end Reading

/-! ### Rendering covers its conjunctions -/

/-- Some matcher of the list matches the request's host and path. -/
def Matched (q : Request) (ms : List Matcher) : Prop := ∃ m ∈ ms, m.matches q.host q.path = true

theorem matchers_covers {c : Conj} (h : c.Covers q) : Matched q.toRequest c.matchers := by
  have hmatch : ∀ s, (s = [] ∨ matchTraefikHost s q.host = true) →
      (c.matcher s).matches q.host q.path = true := by
    intro s hs
    rw [Matcher.matches, Bool.and_eq_true, matcher_matchHost,
      pattern_matchPath (matcher_path c s) (matcher_pathKind c s) q.rooted]
    exact ⟨hs, h.path⟩
  unfold Conj.matchers
  rcases h.host with he | ⟨s, hs, hm⟩
  · refine ⟨c.matcher [], ?_, hmatch [] (Or.inl rfl)⟩
    simp [he]
  · refine ⟨c.matcher s, List.mem_map.2 ⟨s, ?_, rfl⟩, hmatch s (Or.inr hm)⟩
    rw [if_neg (List.ne_nil_of_mem hs)]
    exact hs

variable {ms : List Matcher}

theorem conjsToMatchers_ok (h : conjsToMatchers cs = .ok ms) : ms = cs.flatMap Conj.matchers := by
  simp only [conjsToMatchers] at h
  split at h
  · cases h
  · exact (Except.ok.inj h).symm

theorem conjsToMatchers_covers (h : conjsToMatchers cs = .ok ms) (hcov : Covered q cs) :
    Matched q.toRequest ms := by
  obtain ⟨c, hc, hq⟩ := hcov
  obtain ⟨m, hm, hmatch⟩ := matchers_covers hq
  rw [conjsToMatchers_ok h]
  exact ⟨m, List.mem_flatMap.2 ⟨c, hc, hm⟩, hmatch⟩

theorem conjsToMatchers_ne_nil (h : conjsToMatchers cs = .ok ms) (hne : cs ≠ []) : ms ≠ [] := by
  rw [conjsToMatchers_ok h]
  cases cs with
  | nil => exact absurd rfl hne
  | cons c rest =>
    simp only [List.flatMap_cons, Conj.matchers]
    split <;> simp_all

theorem conjsToMatchers_emitted (h : conjsToMatchers cs = .ok ms) : ∀ m ∈ ms, m.Emitted := by
  intro m hm
  rw [conjsToMatchers_ok h] at hm
  obtain ⟨c, _, hm⟩ := List.mem_flatMap.1 hm
  obtain ⟨s, _, rfl⟩ := List.mem_map.1 hm
  have hhost : (c.matcher s).hostKind = .any ↔ (c.matcher s).host = [] := by
    simp only [Conj.matcher]
    split
    · simp
    · rename_i hne
      simp [hne]
  refine ⟨hhost, ?_, ?_, ?_⟩
  all_goals
    rw [matcher_pathKind, matcher_path, Conj.pattern]
    split_ifs <;> simp_all

theorem conjsToMatchers_compiled (h : conjsToMatchers cs = .ok ms) : ∀ m ∈ ms, m.Compiled :=
  fun m hm => (conjsToMatchers_emitted h m hm).compiled

/-! ### Normalisation and absorption -/

variable {m : Matcher}

theorem normalizeMatcher_matchHost {host : Bytes} (h : m.matchHost host = true) :
    (normalizeMatcher m).matchHost host = true := by
  simp only [normalizeMatcher, Matcher.matchHost] at h ⊢
  split_ifs <;> simp_all

theorem normalizeMatcher_matchPath {path : Bytes} (h : m.matchPath path = true) :
    (normalizeMatcher m).matchPath path = true := by
  simp only [normalizeMatcher, Matcher.matchPath] at h ⊢
  split_ifs <;> simp_all

theorem normalizeMatcher_compiled (h : m.Compiled) : (normalizeMatcher m).Compiled := by
  unfold Matcher.Compiled at h ⊢
  simp only [normalizeMatcher]
  split_ifs <;> simp_all

theorem normalizeMatcher_emitted (h : m.Emitted) : (normalizeMatcher m).Emitted := by
  obtain ⟨hhost, hseg, hbyte, hany⟩ := h
  simp only [Matcher.Emitted, normalizeMatcher]
  split_ifs <;> constructor <;> simp_all

theorem normalizeMatcher_matches {host path : Bytes} (h : m.matches host path = true) :
    (normalizeMatcher m).matches host path = true := by
  simp only [Matcher.matches, Bool.and_eq_true] at h ⊢
  exact ⟨normalizeMatcher_matchHost h.1, normalizeMatcher_matchPath h.2⟩

/-- What a matcher compares, in the order of `sortMatchers`. -/
def Matcher.content (m : Matcher) : Bytes × HostKind × Bytes × PathKind :=
  (m.host, m.hostKind, m.path, m.pathKind)

/-- Normalisation reads and keeps contents alone. -/
theorem normalizeMatcher_content (a b : Matcher) (h : a.content = b.content) :
    (normalizeMatcher a).content = (normalizeMatcher b).content := by
  cases a
  cases b
  simp only [Matcher.content, Prod.mk.injEq] at h
  obtain ⟨rfl, rfl, rfl, rfl⟩ := h
  simp only [normalizeMatcher]
  split_ifs <;> rfl

theorem normalizeMatcher_matches_congr (a b : Matcher) (h : a.content = b.content)
    (host path : Bytes) :
    (normalizeMatcher a).matches host path = (normalizeMatcher b).matches host path := by
  have hcontent := normalizeMatcher_content a b h
  simp only [Matcher.content, Prod.mk.injEq] at hcontent
  simp only [Matcher.matches, Matcher.matchHost, Matcher.matchPath, hcontent]

theorem mem_sortMatchers (ms : List Matcher) : m ∈ sortMatchers ms ↔ m ∈ ms :=
  List.mem_insertionSort _

theorem sortMatchers_trans (hc : ∀ m ∈ ms, m.Compiled) :
    ∀ x ∈ sortMatchers ms, ∀ y ∈ sortMatchers ms, ∀ z ∈ sortMatchers ms,
      matcherLE x y = true → matcherLE y z = true → matcherLE x z = true := by
  simp only [mem_sortMatchers]
  intro x hx y hy z hz
  exact matcherLE_trans (hc x hx) (hc y hy) (hc z hz)

theorem absorbMatchers_matched (hc : ∀ m ∈ ms, m.Compiled) (h : Matched q.toRequest ms) :
    Matched q.toRequest (absorbMatchers ms) := by
  obtain ⟨m, hm, hmatch⟩ := h
  obtain ⟨m', hm', hle⟩ :=
    exists_absorb_ge (sortMatchers_trans hc) ((mem_sortMatchers ms).2 hm)
  refine ⟨m', hm', ?_⟩
  rcases hle with rfl | hle
  · exact hmatch
  · exact matcherLE_sound q.rooted hle hmatch

theorem normalizeEnvelope_compiled (hc : ∀ m ∈ ms, m.Compiled) :
    ∀ m ∈ normalizeEnvelope ms, m.Compiled := by
  intro m hm
  obtain ⟨m', hm', rfl⟩ := List.mem_map.1 hm
  exact normalizeMatcher_compiled (hc m' hm')

theorem mem_envelopeOf (h : m ∈ envelopeOf ms) : ∃ m' ∈ ms, m = normalizeMatcher m' := by
  obtain ⟨m', hm', rfl⟩ := List.mem_map.1 ((mem_sortMatchers _).1 (absorb_subset h))
  exact ⟨m', hm', rfl⟩

/-- An envelope matches what its normalised matchers match. -/
theorem matched_envelopeOf_iff (hc : ∀ m ∈ ms, m.Compiled) : Matched q.toRequest (envelopeOf ms) ↔
    ∃ m ∈ ms, (normalizeMatcher m).matches q.host q.path = true := by
  constructor
  · rintro ⟨m, hm, hq⟩
    obtain ⟨m', hm', rfl⟩ := mem_envelopeOf hm
    exact ⟨m', hm', hq⟩
  · rintro ⟨m, hm, hq⟩
    exact absorbMatchers_matched (normalizeEnvelope_compiled hc) ⟨_, List.mem_map.2 ⟨m, hm, rfl⟩, hq⟩

/-- **Envelopes only widen.**  What a compiled matcher list matches, its envelope matches. -/
theorem envelopeOf_covers (hc : ∀ m ∈ ms, m.Compiled) (h : Matched q.toRequest ms) :
    Matched q.toRequest (envelopeOf ms) := by
  obtain ⟨m, hm, hmatch⟩ := h
  exact (matched_envelopeOf_iff hc).2 ⟨m, hm, normalizeMatcher_matches hmatch⟩

theorem envelopeOf_ne_nil (hc : ∀ m ∈ ms, m.Compiled) (hne : ms ≠ []) : envelopeOf ms ≠ [] := by
  refine absorb_ne_nil (sortMatchers_trans (normalizeEnvelope_compiled hc)) ?_
  obtain ⟨m, hm⟩ := List.exists_mem_of_ne_nil ms hne
  exact List.ne_nil_of_mem ((mem_sortMatchers _).2 (List.mem_map.2 ⟨m, hm, rfl⟩))

/-! ### The whole reader -/

theorem globalEnvelope_matched (q : Request) : Matched q globalEnvelope :=
  ⟨_, List.mem_singleton.2 rfl, rfl⟩

theorem renderEnvelope_covers (h : Covered q cs) : Matched q.toRequest (renderEnvelope cs) := by
  unfold renderEnvelope
  split
  · rename_i ms hms
    exact envelopeOf_covers (conjsToMatchers_compiled hms) (conjsToMatchers_covers hms h)
  · split
    · rename_i ms hms
      exact envelopeOf_covers (conjsToMatchers_compiled hms)
        (conjsToMatchers_covers hms (coarsenConjs_covers h))
    · exact globalEnvelope_matched q.toRequest

theorem coarsenInto_ne_nil (out cs : List Conj) (h : out ≠ [] ∨ cs ≠ []) :
    coarsenInto out cs ≠ [] := by
  induction cs generalizing out with
  | nil => exact h.resolve_right (by simp)
  | cons c rest ih =>
    simp only [coarsenInto]
    split
    · rename_i hdup
      refine ih out (Or.inl ?_)
      rintro rfl
      simp at hdup
    · exact ih _ (Or.inl (by simp))

theorem renderEnvelope_ne_nil (h : cs ≠ []) : renderEnvelope cs ≠ [] := by
  unfold renderEnvelope
  split
  · rename_i ms hms
    exact envelopeOf_ne_nil (conjsToMatchers_compiled hms) (conjsToMatchers_ne_nil hms h)
  · split
    · rename_i ms hms
      exact envelopeOf_ne_nil (conjsToMatchers_compiled hms)
        (conjsToMatchers_ne_nil hms (coarsenInto_ne_nil [] cs (Or.inr h)))
    · simp [globalEnvelope]

variable {rule : Bytes}

theorem deriveEnvelope_some (h : deriveEnvelope rule = some cs) :
    ∃ t, envTree rule = .ok t ∧ t.erase.envelope = (cs, false) ∧ cs ≠ [] := by
  unfold deriveEnvelope at h
  rw [envParse_eq] at h
  cases ht : envTree rule with
  | error e => simp [ht, Except.map] at h
  | ok t =>
    simp only [ht, Except.map] at h
    split at h
    · cases h
    · rename_i hno
      simp only [Bool.or_eq_true, beq_iff_eq, not_or, Bool.not_eq_true] at hno
      rw [Option.some.injEq] at h
      refine ⟨t, rfl, ?_, h ▸ hno.2⟩
      rw [← h, ← hno.1]

theorem ruleEnvelope_covers {t : RuleTree} (ht : envTree rule = .ok t) {Ω : Type}
    {req : Ω → HttpRequest} {other : Call → Ω → Prop} {w : Ω} (hr : t.reads req other w)
    (hnb : trimSpace rule ≠ []) : Matched (req w).toRequest (ruleEnvelope rule) := by
  unfold ruleEnvelope
  rw [if_neg hnb]
  split
  · exact globalEnvelope_matched _
  · rename_i cs hcs
    obtain ⟨t', ht', henv, _⟩ := deriveEnvelope_some hcs
    obtain rfl : t = t' := Except.ok.inj (ht.symm.trans ht')
    have hallow := envelope_covers hr
    rw [henv] at hallow
    exact renderEnvelope_covers (hallow.resolve_left (by simp))

theorem ruleEnvelope_eq_nil_iff (rule : Bytes) : ruleEnvelope rule = [] ↔ trimSpace rule = [] := by
  unfold ruleEnvelope
  constructor
  · intro h
    by_contra hnb
    rw [if_neg hnb] at h
    split at h
    · simp [globalEnvelope] at h
    · rename_i cs hcs
      obtain ⟨_, _, _, hne⟩ := deriveEnvelope_some hcs
      exact renderEnvelope_ne_nil hne h
  · intro h
    rw [if_pos h]

theorem ruleEnvelope_of_not_parsed (hnb : trimSpace rule ≠ []) (hno : ∀ t, envTree rule ≠ .ok t) :
    ruleEnvelope rule = globalEnvelope := by
  unfold ruleEnvelope
  rw [if_neg hnb]
  split
  · rfl
  · rename_i cs hcs
    obtain ⟨t, ht, _⟩ := deriveEnvelope_some hcs
    exact absurd ht (hno t)

/-- A blank text holds no token, and the grammar accepts no empty stream. -/
theorem trimSpace_ne_nil_of_envTree {t : RuleTree} (ht : envTree rule = .ok t) :
    trimSpace rule ≠ [] := by
  unfold envTree at ht
  split at ht
  · cases ht
  · rename_i toks htoks
    have hne : toks ≠ [] := by
      rintro rfl
      simp [parse, parseOr, parseAnd, parseTerm] at ht
    obtain ⟨c, hc, hg⟩ := lexText_graphic htoks hne
    exact List.ne_nil_of_mem (mem_trimSpace hg hc)

/-- **Refusal envelopes are sound.**  A request the rule accepts, whatever its unreadable calls
mean, is matched by the rule's envelope; a rule that does not parse has the global envelope; and
only a blank rule has none. -/
theorem ruleEnvelope_sound (rule : Bytes) :
    (∀ t, envTree rule = .ok t →
      ∀ (Ω : Type) (req : Ω → HttpRequest) (other : Call → Ω → Prop) (w : Ω),
        t.reads req other w →
          ∃ m ∈ ruleEnvelope rule, m.matches (req w).host (req w).path = true) ∧
      (trimSpace rule ≠ [] → (∀ t, envTree rule ≠ .ok t) →
        ruleEnvelope rule = [{ hostKind := .any, path := lit "/*", pathKind := .any }]) ∧
      (ruleEnvelope rule = [] ↔ trimSpace rule = []) := by
  refine ⟨?_, ruleEnvelope_of_not_parsed, ruleEnvelope_eq_nil_iff rule⟩
  intro t ht Ω req other w hr
  exact ruleEnvelope_covers ht hr (trimSpace_ne_nil_of_envTree ht)

/-- A rule with a negation and an unreadable call beside a host. -/
def negatedRule : Bytes := lit "Host(\"a\") && !Header(\"x\", \"y\")"

/-- The tree of `negatedRule`. -/
def negatedTree : RuleTree :=
  .and (.fn ⟨lit "Host", [lit "a"]⟩) (.not (.fn ⟨lit "Header", [lit "x", lit "y"]⟩))

/-- Soundness at `negatedRule`, for requests without the header. -/
theorem ruleEnvelope_sound_negatedRule :
    envTree negatedRule = .ok negatedTree ∧
      negatedTree.reads (fun q : HttpRequest => q) (fun _ _ => False) requestForA ∧
      ∃ m ∈ ruleEnvelope negatedRule, m.matches requestForA.host requestForA.path = true := by
  have ht : envTree negatedRule = .ok negatedTree := by decide +kernel
  have hr : negatedTree.reads (fun q : HttpRequest => q) (fun _ _ => False) requestForA := by
    refine ⟨?_, ?_⟩
    · rw [RuleTree.reads, Call.readsAs, if_pos (by decide)]
      exact ⟨lit "a", by decide, by decide⟩
    · rw [RuleTree.reads, RuleTree.reads, Call.readsAs, if_neg (by decide), if_neg (by decide),
        if_neg (by decide)]
      exact not_false
  exact ⟨ht, hr, (ruleEnvelope_sound negatedRule).1 _ ht _ _ _ _ hr⟩

end Statute.Docker
