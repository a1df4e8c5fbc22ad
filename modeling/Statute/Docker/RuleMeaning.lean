import Statute.Docker.Rule

/-!
# What a parsed rule means

The Boolean reading of a rule tree, and how `parseRule` relates to it.  Matching folds the case and
one trailing dot of a host, but `intersectRuleHosts` compares spellings, so a conjunction of two
`Host` calls keeps a host only when both spell it alike.  The two readings below make that exact:

* `RuleExpr.reads`: each `Host` call is satisfied by any of its arguments;
* `RuleExpr.readsVia h`: every `Host` call is satisfied by the one spelling `h`.

`accepts_iff_readsVia` shows that the matchers of an accepted rule accept exactly the requests read
through one spelling.
-/

namespace Statute.Docker

open Statute.Base

/-! ### Readings of a rule tree -/

/-- The prefix a `ClientIP` argument writes. -/
def clientIPArg (value : Bytes) : Option Prefix :=
  match parseAddr value with
  | some ip => some (Prefix.single ip.unmap)
  | none => parsePrefix value

def peerIn (p : Prefix) (q : Request) : Prop :=
  ∃ peer, q.peer = some peer ∧ p.contains peer.withoutZone.unmap = true

/-- The reading of a call, given how `Host` reads its arguments. -/
def Call.holds (host : List Bytes → Prop) (q : Request) (c : Call) : Prop :=
  if c.name = lit "Host" then host c.args
  else if c.name = lit "ClientIP" then ∃ a ∈ c.args, ∃ p, clientIPArg a = some p ∧ peerIn p q
  else if c.name = lit "Path" then q.path ∈ c.args
  else if c.name = lit "PathPrefix" then ∃ a ∈ c.args, a <+: q.path
  else False

/-- The Boolean reading of a rule tree, given how `Host` reads its arguments. -/
def RuleExpr.holds (host : List Bytes → Prop) (q : Request) : RuleExpr → Prop
  | .or l r => l.holds host q ∨ r.holds host q
  | .and l r => l.holds host q ∧ r.holds host q
  | .fn c => c.holds host q

/-- The reading of the rule: a `Host` call accepts the request when some argument matches. -/
def RuleExpr.reads (e : RuleExpr) (q : Request) : Prop :=
  e.holds (fun args => ∃ a ∈ args, matchTraefikHost a q.host = true) q

/-- The reading in which every `Host` call has to be satisfied by the spelling `h`. -/
def RuleExpr.readsVia (h : Bytes) (e : RuleExpr) (q : Request) : Prop :=
  e.holds (fun args => h ∈ args ∧ matchTraefikHost h q.host = true) q

/-- The argument lists of the `Host` calls of a rule. -/
def RuleExpr.hostCalls : RuleExpr → List (List Bytes)
  | .or l r => l.hostCalls ++ r.hostCalls
  | .and l r => l.hostCalls ++ r.hostCalls
  | .fn c => if c.name = lit "Host" then [c.args] else []

variable {e : RuleExpr}

theorem RuleExpr.holds_mono {H K : List Bytes → Prop} {q : Request}
    (hHK : ∀ args ∈ e.hostCalls, H args → K args) (h : e.holds H q) : e.holds K q := by
  induction e with
  | or l r ihl ihr =>
    simp only [RuleExpr.hostCalls, List.forall_mem_append] at hHK
    exact h.imp (ihl hHK.1) (ihr hHK.2)
  | and l r ihl ihr =>
    simp only [RuleExpr.hostCalls, List.forall_mem_append] at hHK
    exact ⟨ihl hHK.1 h.1, ihr hHK.2 h.2⟩
  | fn c =>
    simp only [RuleExpr.holds, Call.holds, RuleExpr.hostCalls] at h hHK ⊢
    split
    · rename_i hn
      rw [if_pos hn] at h hHK
      exact hHK c.args (by simp) h
    · rename_i hn
      rwa [if_neg hn] at h

theorem RuleExpr.reads_of_readsVia {h : Bytes} {q : Request} (hv : e.readsVia h q) : e.reads q :=
  e.holds_mono (fun _ _ ha => ⟨h, ha⟩) hv

/-! ### Conjunctions -/

/-- The request satisfies the conjunction with its host matched through the spelling `h`. -/
structure Conj.Via (h : Bytes) (q : Request) (c : Conj) : Prop where
  host : c.hosts = [] ∨ (h ∈ c.hosts ∧ matchTraefikHost h q.host = true)
  peer : c.peers = [] ∨ ∃ p ∈ c.peers, peerIn p q
  path : c.pathSet = true → if c.byPrefix then c.path <+: q.path else q.path = c.path

theorem mem_compact {α : Type} [DecidableEq α] {x : α} (xs : List α) : x ∈ compact xs ↔ x ∈ xs := by
  fun_induction compact xs with
  | case1 | case2 => rfl
  | case3 x' rest ih => simp [ih]
  | case4 y rest x' hne ih => simp [ih]

theorem mem_sortCIDRs {p : Prefix} (ps : List Prefix) : p ∈ sortCIDRs ps ↔ p ∈ ps := by
  rw [sortCIDRs, mem_compact, List.mem_insertionSort]

theorem sortCIDRs_ne_nil {ps : List Prefix} (h : ps ≠ []) : sortCIDRs ps ≠ [] := by
  obtain ⟨p, hp⟩ := List.exists_mem_of_ne_nil ps h
  exact List.ne_nil_of_mem ((mem_sortCIDRs ps).2 hp)

theorem mem_intersectRuleHosts {a b out : List Bytes} (ha : a ≠ []) (hb : b ≠ [])
    (h : intersectRuleHosts a b = .ok out) :
    out ≠ [] ∧ ∀ x, x ∈ out ↔ x ∈ a ∧ x ∈ b := by
  simp only [intersectRuleHosts, if_neg ha, if_neg hb] at h
  split at h
  · cases h
  · rename_i hne
    simp only [Except.ok.injEq] at h
    subst h
    refine ⟨hne, fun x => ?_⟩
    simp only [List.mem_flatMap, List.mem_map, List.mem_filter, beq_iff_eq]
    constructor
    · rintro ⟨l, hl, r, ⟨hr, rfl⟩, rfl⟩
      exact ⟨hl, hr⟩
    · rintro ⟨hxa, hxb⟩
      exact ⟨x, hxa, x, ⟨hxb, rfl⟩, rfl⟩

/-- The prefixes form a laminar family, so the pair step computes the meet. -/
theorem mem_meetPrefix (l r : Prefix) (q : Request) :
    (∃ p ∈ meetPrefix l r, peerIn p q) ↔ peerIn l q ∧ peerIn r q := by
  constructor
  · rintro ⟨p, hp, peer, hpeer, hc⟩
    unfold meetPrefix at hp
    split at hp
    · rename_i hn
      rw [List.mem_singleton.1 hp] at hc
      exact ⟨⟨peer, hpeer, contains_of_nested hn.1 hn.2 hc⟩, peer, hpeer, hc⟩
    · split at hp
      · rename_i hn
        rw [List.mem_singleton.1 hp] at hc
        exact ⟨⟨peer, hpeer, hc⟩, peer, hpeer, contains_of_nested hn.1 hn.2 hc⟩
      · cases hp
  · rintro ⟨⟨peer, hpeer, hl⟩, peer', hpeer', hr⟩
    rw [hpeer, Option.some.injEq] at hpeer'
    subst hpeer'
    unfold meetPrefix
    split
    · exact ⟨r, by simp, peer, hpeer, hr⟩
    · rename_i hlr
      -- the shorter prefix is the right one, and a common member nests them
      have hbits : r.bits ≤ l.bits := by
        by_contra hlt
        exact hlr ⟨by omega, nested_of_contains (by omega) hl hr⟩
      rw [if_pos ⟨hbits, nested_of_contains hbits hr hl⟩]
      exact ⟨l, by simp, peer, hpeer, hl⟩

theorem mem_intersectRulePeers {a b out : List Prefix} (ha : a ≠ []) (hb : b ≠ [])
    (h : intersectRulePeers a b = .ok out) (q : Request) :
    out ≠ [] ∧ ((∃ p ∈ out, peerIn p q) ↔ (∃ p ∈ a, peerIn p q) ∧ ∃ p ∈ b, peerIn p q) := by
  simp only [intersectRulePeers, if_neg ha, if_neg hb] at h
  split at h
  · cases h
  · rename_i hne
    simp only [Except.ok.injEq] at h
    subst h
    refine ⟨sortCIDRs_ne_nil hne, ?_⟩
    simp only [mem_sortCIDRs, List.mem_flatMap]
    constructor
    · rintro ⟨p, ⟨l, hl, r, hr, hp⟩, hq⟩
      obtain ⟨hql, hqr⟩ := (mem_meetPrefix l r q).1 ⟨p, hp, hq⟩
      exact ⟨⟨l, hl, hql⟩, r, hr, hqr⟩
    · rintro ⟨⟨l, hl, hql⟩, r, hr, hqr⟩
      obtain ⟨p, hp, hq⟩ := (mem_meetPrefix l r q).2 ⟨hql, hqr⟩
      exact ⟨p, ⟨l, hl, r, hr, hp⟩, hq⟩

theorem host_intersect {a b out : List Bytes} (h : intersectRuleHosts a b = .ok out) (x : Bytes)
    (P : Prop) : (out = [] ∨ (x ∈ out ∧ P)) ↔ (a = [] ∨ (x ∈ a ∧ P)) ∧ (b = [] ∨ (x ∈ b ∧ P)) := by
  by_cases ha : a = []
  · rw [intersectRuleHosts, if_pos ha, Except.ok.injEq] at h
    simp [ha, h]
  · by_cases hb : b = []
    · rw [intersectRuleHosts, if_neg ha, if_pos hb, Except.ok.injEq] at h
      simp [hb, h]
    · obtain ⟨hne, hmem⟩ := mem_intersectRuleHosts ha hb h
      simp only [hne, ha, hb, false_or, hmem]
      tauto

theorem peer_intersect {a b out : List Prefix} (h : intersectRulePeers a b = .ok out)
    (q : Request) :
    (out = [] ∨ ∃ p ∈ out, peerIn p q) ↔
      (a = [] ∨ ∃ p ∈ a, peerIn p q) ∧ (b = [] ∨ ∃ p ∈ b, peerIn p q) := by
  by_cases ha : a = []
  · rw [intersectRulePeers, if_pos ha, Except.ok.injEq] at h
    simp [ha, h]
  · by_cases hb : b = []
    · rw [intersectRulePeers, if_neg ha, if_pos hb, Except.ok.injEq] at h
      simp [hb, h]
    · obtain ⟨hne, hmem⟩ := mem_intersectRulePeers ha hb h q
      simp only [hne, ha, hb, false_or, hmem]

/-- A merged conjunction is the conjunction, spelling by spelling. -/
theorem mergeConj_via {a b m : Conj} (hm : mergeConj a b = .ok m) (h : Bytes) (q : Request) :
    m.Via h q ↔ a.Via h q ∧ b.Via h q := by
  unfold mergeConj at hm
  split at hm
  · cases hm
  rename_i hosts hhosts
  split at hm
  · cases hm
  rename_i peers hpeers
  have hh := host_intersect hhosts h (matchTraefikHost h q.host = true)
  have hp := peer_intersect hpeers q
  split at hm
  · rename_i hbs
    split at hm
    · cases hm
    · rename_i has
      rw [← Except.ok.inj hm]
      constructor
      · rintro ⟨h1, h2, h3⟩
        exact ⟨⟨(hh.1 h1).1, (hp.1 h2).1, fun h => absurd h has⟩,
          (hh.1 h1).2, (hp.1 h2).2, fun _ => h3 rfl⟩
      · rintro ⟨ha, hb⟩
        exact ⟨hh.2 ⟨ha.host, hb.host⟩, hp.2 ⟨ha.peer, hb.peer⟩, fun _ => hb.path hbs⟩
  · rename_i hbs
    rw [← Except.ok.inj hm]
    constructor
    · rintro ⟨h1, h2, h3⟩
      exact ⟨⟨(hh.1 h1).1, (hp.1 h2).1, h3⟩, (hh.1 h1).2, (hp.1 h2).2, fun h => absurd h hbs⟩
    · rintro ⟨ha, hb⟩
      exact ⟨hh.2 ⟨ha.host, hb.host⟩, hp.2 ⟨ha.peer, hb.peer⟩, ha.path⟩

/-! ### Expansion -/

variable {cs : List Conj}

theorem mergePairs_via {out : List Conj} {ps : List (Conj × Conj)}
    (hcs : mergePairs out ps = .ok cs) (h : Bytes) (q : Request) :
    (∃ c ∈ cs, c.Via h q) ↔
      (∃ c ∈ out, c.Via h q) ∨ ∃ p ∈ ps, p.1.Via h q ∧ p.2.Via h q := by
  induction ps generalizing out with
  | nil =>
    rw [mergePairs, Except.ok.injEq] at hcs
    simp [hcs]
  | cons p rest ih =>
    obtain ⟨l, r⟩ := p
    simp only [mergePairs] at hcs
    split at hcs
    · cases hcs
    · rename_i m hm
      split at hcs
      · cases hcs
      · rw [ih hcs]
        simp only [List.mem_append, List.mem_cons, List.not_mem_nil, or_and_right, exists_or,
          exists_eq_left, false_and, exists_false, false_or, mergeConj_via hm h q, or_assoc]

theorem exists_pairs {α β : Type} (ls : List α) (rs : List β) (P : α → Prop) (Q : β → Prop) :
    (∃ p ∈ pairs ls rs, P p.1 ∧ Q p.2) ↔ (∃ l ∈ ls, P l) ∧ ∃ r ∈ rs, Q r := by
  simp only [pairs, List.mem_flatMap, List.mem_map]
  constructor
  · rintro ⟨_, ⟨l, hl, r, hr, rfl⟩, hP, hQ⟩
    exact ⟨⟨l, hl, hP⟩, r, hr, hQ⟩
  · rintro ⟨⟨l, hl, hP⟩, r, hr, hQ⟩
    exact ⟨(l, r), ⟨l, hl, r, hr, rfl⟩, hP, hQ⟩

theorem clientIPPrefix_peerIn (a : Bytes) (q : Request) :
    (∃ p, clientIPPrefix a = some p ∧ peerIn p q) ↔ ∃ p, clientIPArg a = some p ∧ peerIn p q := by
  unfold clientIPPrefix clientIPArg
  cases parseAddr a with
  | some ip => simp [peerIn]
  | none => cases parsePrefix a <;> simp [peerIn]

variable {args : List Bytes}

theorem mem_clientIPPrefixes {ps : List Prefix} (h : clientIPPrefixes args = some ps) (p : Prefix) :
    p ∈ ps ↔ ∃ a ∈ args, clientIPPrefix a = some p := by
  induction args generalizing ps with
  | nil =>
    rw [clientIPPrefixes, Option.some.injEq] at h
    simp [← h]
  | cons a as ih =>
    simp only [clientIPPrefixes] at h
    split at h
    · rename_i p' ps' hp' hps'
      rw [Option.some.injEq] at h
      subst h
      simp [ih hps', hp', eq_comm]
    · cases h

theorem clientIPPrefixes_ne_nil {ps : List Prefix} (h : clientIPPrefixes args = some ps)
    (hargs : args ≠ []) : ps ≠ [] := by
  rintro rfl
  cases args with
  | nil => exact hargs rfl
  | cons a as =>
    simp only [clientIPPrefixes] at h
    split at h <;> simp at h

theorem expandPathMatcher_via {name : Bytes} {byPrefix : Bool}
    (hcs : expandPathMatcher name args byPrefix = .ok cs) (h : Bytes) (q : Request) :
    (∃ c ∈ cs, c.Via h q) ↔
      ∃ a ∈ args, if byPrefix then a <+: q.path else q.path = a := by
  unfold expandPathMatcher at hcs
  split at hcs
  · cases hcs
  · rw [← Except.ok.inj hcs]
    constructor
    · rintro ⟨c, hc, hv⟩
      obtain ⟨a, ha, rfl⟩ := List.mem_map.1 hc
      exact ⟨a, ha, hv.path rfl⟩
    · rintro ⟨a, ha, hp⟩
      exact ⟨_, List.mem_map.2 ⟨a, ha, rfl⟩, Or.inl rfl, Or.inl rfl, fun _ => hp⟩

/-- One call: its conjunctions accept what the call reads. -/
theorem expandCall_via {c : Call} (hcs : expandCall c = .ok cs) (h : Bytes) (q : Request) :
    (∃ k ∈ cs, k.Via h q) ↔
      c.holds (fun args => h ∈ args ∧ matchTraefikHost h q.host = true) q := by
  unfold expandCall at hcs
  unfold Call.holds
  split at hcs
  · cases hcs
  rename_i hargs
  split_ifs at hcs ⊢ with hhost hip hpath hpre
  · split at hcs
    · cases hcs
    · rw [← Except.ok.inj hcs]
      simp only [List.mem_singleton, exists_eq_left]
      constructor
      · intro hv
        exact hv.host.resolve_left hargs
      · intro hv
        exact ⟨Or.inr hv, Or.inl rfl, by simp⟩
  · split at hcs
    · rename_i ps hps
      rw [← Except.ok.inj hcs]
      simp only [List.mem_singleton, exists_eq_left, ← clientIPPrefix_peerIn]
      have hne := sortCIDRs_ne_nil (clientIPPrefixes_ne_nil hps hargs)
      constructor
      · intro hv
        obtain ⟨p, hp, hq⟩ := hv.peer.resolve_left hne
        obtain ⟨a, ha, hap⟩ := (mem_clientIPPrefixes hps p).1 ((mem_sortCIDRs ps).1 hp)
        exact ⟨a, ha, p, hap, hq⟩
      · rintro ⟨a, ha, p, hap, hq⟩
        refine ⟨Or.inl rfl, Or.inr ⟨p, ?_, hq⟩, by simp⟩
        exact (mem_sortCIDRs ps).2 ((mem_clientIPPrefixes hps p).2 ⟨a, ha, hap⟩)
    · cases hcs
  · rw [expandPathMatcher_via hcs]
    simp
  · rw [expandPathMatcher_via hcs]
    simp

/-- **Expansion keeps the reading**, spelling by spelling. -/
theorem expand_via (hcs : e.expand = .ok cs) (h : Bytes) (q : Request) :
    (∃ c ∈ cs, c.Via h q) ↔ e.readsVia h q := by
  induction e generalizing cs with
  | or l r ihl ihr =>
    simp only [RuleExpr.expand] at hcs
    split at hcs
    · cases hcs
    rename_i ls hls
    split at hcs
    · cases hcs
    rename_i rs hrs
    rw [← Except.ok.inj hcs]
    simp only [List.mem_append, or_and_right, exists_or, ihl hls, ihr hrs]
    rfl
  | and l r ihl ihr =>
    simp only [RuleExpr.expand] at hcs
    split at hcs
    · cases hcs
    rename_i ls hls
    split at hcs
    · cases hcs
    rename_i rs hrs
    rw [mergePairs_via hcs, exists_pairs ls rs (Conj.Via h q) (Conj.Via h q), ihl hls, ihr hrs]
    simp [RuleExpr.readsVia, RuleExpr.holds]
  | fn c => exact expandCall_via hcs h q

/-! ### No conjunction names an empty host -/

/-- The hosts of a conjunction are not empty texts. -/
def Conj.HostsNamed (c : Conj) : Prop := ∀ h ∈ c.hosts, h ≠ []

theorem mergeConj_hostsNamed {a b m : Conj} (hm : mergeConj a b = .ok m) (ha : a.HostsNamed)
    (hb : b.HostsNamed) : m.HostsNamed := by
  intro h hh
  -- a spelling of the merged set is a spelling of a side that has hosts
  have hin : h ∈ a.hosts ∨ h ∈ b.hosts := by
    unfold mergeConj at hm
    split at hm
    · cases hm
    rename_i hosts hhosts
    have hmem := (host_intersect hhosts h True).1 (Or.inr ⟨?_, trivial⟩)
    · by_cases hae : a.hosts = []
      · rw [intersectRuleHosts, if_pos hae, Except.ok.injEq] at hhosts
        refine Or.inr (hmem.2.resolve_left ?_).1
        rintro hbe
        split at hm
        · cases hm
        split_ifs at hm
        all_goals
          rw [← Except.ok.inj hm] at hh
          simp [← hhosts, hbe] at hh
      · exact Or.inl (hmem.1.resolve_left hae).1
    · split at hm
      · cases hm
      split_ifs at hm
      all_goals
        rw [← Except.ok.inj hm] at hh
        exact hh
  exact hin.elim (ha h) (hb h)

theorem mergePairs_hostsNamed {out : List Conj} {ps : List (Conj × Conj)}
    (hcs : mergePairs out ps = .ok cs) (hout : ∀ c ∈ out, c.HostsNamed)
    (hps : ∀ p ∈ ps, p.1.HostsNamed ∧ p.2.HostsNamed) : ∀ c ∈ cs, c.HostsNamed := by
  induction ps generalizing out with
  | nil =>
    rw [mergePairs, Except.ok.injEq] at hcs
    exact hcs ▸ hout
  | cons p rest ih =>
    obtain ⟨l, r⟩ := p
    simp only [mergePairs] at hcs
    split at hcs
    · cases hcs
    · rename_i m hm
      split at hcs
      · cases hcs
      · refine ih hcs ?_ fun p hp => hps p (List.mem_cons_of_mem _ hp)
        intro c hc
        rcases List.mem_append.1 hc with hc | hc
        · exact hout c hc
        · obtain ⟨hl, hr⟩ := hps (l, r) List.mem_cons_self
          exact List.mem_singleton.1 hc ▸ mergeConj_hostsNamed hm hl hr

theorem expandPathMatcher_hosts {name : Bytes} {byPrefix : Bool}
    (hcs : expandPathMatcher name args byPrefix = .ok cs) : ∀ c ∈ cs, c.hosts = [] := by
  unfold expandPathMatcher at hcs
  split at hcs
  · cases hcs
  · rw [← Except.ok.inj hcs]
    intro c hc
    obtain ⟨a, _, rfl⟩ := List.mem_map.1 hc
    rfl

theorem expandCall_hostsNamed {c : Call} (hcs : expandCall c = .ok cs) :
    ∀ k ∈ cs, k.HostsNamed := by
  intro k hk h hh
  unfold expandCall at hcs
  split_ifs at hcs
  · split at hcs
    · cases hcs
    · rename_i hnone
      rw [← Except.ok.inj hcs, List.mem_singleton] at hk
      subst hk
      have hok := List.find?_eq_none.1 hnone h hh
      simp only [ruleHostArg, Bool.not_eq_true', Bool.not_eq_false, Bool.and_eq_true,
        bne_iff_ne] at hok
      exact hok.1.1
  · split at hcs
    · rw [← Except.ok.inj hcs, List.mem_singleton] at hk
      subst hk
      cases hh
    · cases hcs
  all_goals
    rw [expandPathMatcher_hosts hcs k hk] at hh
    cases hh

theorem expand_hostsNamed (hcs : e.expand = .ok cs) : ∀ c ∈ cs, c.HostsNamed := by
  induction e generalizing cs with
  | or l r ihl ihr =>
    simp only [RuleExpr.expand] at hcs
    split at hcs
    · cases hcs
    rename_i ls hls
    split at hcs
    · cases hcs
    rename_i rs hrs
    rw [← Except.ok.inj hcs]
    intro c hc
    exact (List.mem_append.1 hc).elim (ihl hls c) (ihr hrs c)
  | and l r ihl ihr =>
    simp only [RuleExpr.expand] at hcs
    split at hcs
    · cases hcs
    rename_i ls hls
    split at hcs
    · cases hcs
    rename_i rs hrs
    refine mergePairs_hostsNamed hcs (by simp) fun p hp => ?_
    simp only [pairs, List.mem_flatMap, List.mem_map] at hp
    obtain ⟨a, ha, b, hb, rfl⟩ := hp
    exact ⟨ihl hls a ha, ihr hrs b hb⟩
  | fn c => exact expandCall_hostsNamed hcs

/-! ### Matchers -/

theorem routePeerMatches_iff (ps : List Prefix) (q : Request) :
    routePeerMatches ps q = true ↔ ps = [] ∨ ∃ p ∈ ps, peerIn p q := by
  unfold routePeerMatches
  split
  · rename_i h
    simp [h]
  · rename_i h
    cases hp : q.peer with
    | none => simp [h, peerIn, hp]
    | some peer => simp [h, addrInPrefixes, peerIn, hp]

/-- The pattern of a conjunction accepts the paths its constraint names. -/
theorem pattern_matchPath {c : Conj} {m : Matcher} (hp : m.path = c.pattern.1)
    (hk : m.pathKind = c.pattern.2) {path : Bytes} (hroot : lit "/" <+: path) :
    m.matchPath path = true ↔
      (c.pathSet = true → if c.byPrefix then c.path <+: path else path = c.path) := by
  unfold Conj.pattern at hp hk
  unfold Matcher.matchPath
  split_ifs at hp hk with hset hby hslash
  · simp only [hk, hset, hby, hslash, hroot, if_true, forall_const]
  · simp only [hk, hp, hset, hby, hasPrefix_iff, if_true, forall_const]
  · simp only [hk, hp, hset, hby, beq_iff_eq, forall_const]
    rfl
  · simp only [hk, hset, Bool.false_eq_true, false_imp_iff]

theorem matcher_path (c : Conj) (h : Bytes) : (c.matcher h).path = c.pattern.1 := by
  simp only [Conj.matcher]
  split <;> rfl

theorem matcher_pathKind (c : Conj) (h : Bytes) : (c.matcher h).pathKind = c.pattern.2 := by
  simp only [Conj.matcher]
  split <;> rfl

theorem matcher_peers (c : Conj) (h : Bytes) : (c.matcher h).peerIPCIDRs = c.peers := by
  simp only [Conj.matcher]
  split <;> rfl

theorem matcher_matchHost (c : Conj) (h host : Bytes) :
    (c.matcher h).matchHost host = true ↔ h = [] ∨ matchTraefikHost h host = true := by
  simp only [Conj.matcher, toLower_eq_nil]
  split
  · rename_i he
    simp [Matcher.matchHost, he]
  · rename_i he
    simp [Matcher.matchHost, he, matchTraefikHost_congr (toLower_idem h) (rfl : toLower host = _)]

theorem matchers_via {c : Conj} (hn : c.HostsNamed) (q : HttpRequest) :
    (∃ m ∈ c.matchers, m.accepts q.toRequest = true) ↔ ∃ h, c.Via h q.toRequest := by
  have hacc : ∀ h, (c.matcher h).accepts q.toRequest = true ↔
      (h = [] ∨ matchTraefikHost h q.host = true) ∧
        (c.pathSet = true → if c.byPrefix then c.path <+: q.path else q.path = c.path) ∧
        (c.peers = [] ∨ ∃ p ∈ c.peers, peerIn p q.toRequest) := by
    intro h
    simp only [Matcher.accepts, Matcher.matches, Bool.and_eq_true, matcher_matchHost,
      pattern_matchPath (matcher_path c h) (matcher_pathKind c h) q.rooted, matcher_peers, routePeerMatches_iff,
      and_assoc]
  unfold Conj.matchers
  constructor
  · rintro ⟨m, hm, hq⟩
    obtain ⟨h, hh, rfl⟩ := List.mem_map.1 hm
    obtain ⟨h1, h2, h3⟩ := (hacc h).1 hq
    refine ⟨h, ?_, h3, h2⟩
    split at hh
    · rename_i he
      exact Or.inl he
    · exact Or.inr ⟨hh, h1.resolve_left (hn h hh)⟩
  · rintro ⟨h, hv⟩
    rcases hv.host with he | ⟨hh, hmatch⟩
    · refine ⟨c.matcher [], ?_, (hacc []).2 ⟨Or.inl rfl, hv.path, hv.peer⟩⟩
      rw [if_pos he]
      simp
    · refine ⟨c.matcher h, List.mem_map.2 ⟨h, ?_, rfl⟩, (hacc h).2 ⟨Or.inr hmatch, hv.path, hv.peer⟩⟩
      rw [if_neg (List.ne_nil_of_mem hh)]
      exact hh

/-! ### The parser -/

/-- **The matchers of an accepted rule** accept exactly the requests that the rule reads through one
spelling of the host. -/
theorem accepts_iff_readsVia {rule : Bytes} {ms : List Matcher} (hms : parseRule rule = .ok ms)
    (he : ruleTree rule = .ok e) (q : HttpRequest) :
    (∃ m ∈ ms, m.accepts q.toRequest = true) ↔ ∃ h, e.readsVia h q.toRequest := by
  simp only [parseRule, he] at hms
  split at hms
  · cases hms
  rename_i cs hcs
  simp only [conjsToMatchers] at hms
  split at hms
  · cases hms
  rw [← Except.ok.inj hms]
  calc (∃ m ∈ cs.flatMap Conj.matchers, m.accepts q.toRequest = true)
      ↔ ∃ c ∈ cs, ∃ m ∈ c.matchers, m.accepts q.toRequest = true := by
        simp only [List.mem_flatMap]
        constructor
        · rintro ⟨m, ⟨c, hc, hm⟩, hq⟩
          exact ⟨c, hc, m, hm, hq⟩
        · rintro ⟨c, hc, m, hm, hq⟩
          exact ⟨m, ⟨c, hc, hm⟩, hq⟩
    _ ↔ ∃ c ∈ cs, ∃ h, c.Via h q.toRequest := by
        refine exists_congr fun c => and_congr_right fun hc => ?_
        exact matchers_via (expand_hostsNamed hcs c hc) q
    _ ↔ ∃ h, ∃ c ∈ cs, c.Via h q.toRequest := by
        constructor
        · rintro ⟨c, hc, h, hv⟩
          exact ⟨h, c, hc, hv⟩
        · rintro ⟨h, c, hc, hv⟩
          exact ⟨c, hc, h, hv⟩
    _ ↔ ∃ h, e.readsVia h q.toRequest := exists_congr fun h => expand_via hcs h q.toRequest

/-- An accepted rule has a tree. -/
theorem ruleTree_of_parseRule {rule : Bytes} {ms : List Matcher} (hms : parseRule rule = .ok ms) :
    ∃ e, ruleTree rule = .ok e := by
  cases h : ruleTree rule with
  | error err => simp [parseRule, h] at hms
  | ok e => exact ⟨e, rfl⟩

/-- **When `ParseRule` denotes the rule.**  For an accepted rule and a request, the matchers agree
with the rule's reading exactly when a request the rule reads is read through one spelling of the
host. -/
theorem parseRule_denotes_iff {rule : Bytes} {ms : List Matcher} (hms : parseRule rule = .ok ms) :
    ∃ e, ruleTree rule = .ok e ∧ ∀ q : HttpRequest,
      ((∃ m ∈ ms, m.accepts q.toRequest = true) ↔ e.reads q.toRequest) ↔
        (e.reads q.toRequest → ∃ h, e.readsVia h q.toRequest) := by
  obtain ⟨e, he⟩ := ruleTree_of_parseRule hms
  refine ⟨e, he, fun q => ?_⟩
  rw [accepts_iff_readsVia hms he q]
  constructor
  · intro h hr
    exact h.2 hr
  · intro h
    refine ⟨?_, h⟩
    rintro ⟨s, hs⟩
    exact e.reads_of_readsVia hs

/-! ### A conjunction of two spellings -/

/-- Two `Host` calls that spell one host in two ways and share another. -/
def twoSpellings : Bytes := lit "Host(\"A\",\"b\") && Host(\"a\",\"b\")"

/-- The tree of `twoSpellings`. -/
def twoSpellingsTree : RuleExpr :=
  .and (.fn ⟨lit "Host", [lit "A", lit "b"]⟩) (.fn ⟨lit "Host", [lit "a", lit "b"]⟩)

/-- A request for host `a`. -/
def requestForA : HttpRequest where
  host := lit "a"
  path := lit "/"
  ascii := by decide
  rooted := by decide

theorem parseRule_twoSpellings :
    parseRule twoSpellings = .ok [{ host := lit "b", hostKind := .traefik, path := lit "/*" }] := by
  decide +kernel

/-- The rule reads a request for `a`, and no matcher accepts it. -/
theorem twoSpellings_not_denoted :
    ruleTree twoSpellings = .ok twoSpellingsTree ∧
      twoSpellingsTree.reads requestForA.toRequest ∧
      ∃ ms, parseRule twoSpellings = .ok ms ∧ ¬ ∃ m ∈ ms, m.accepts requestForA.toRequest = true := by
  refine ⟨by decide +kernel, ⟨?_, ?_⟩, _, parseRule_twoSpellings, by decide +kernel⟩
  · exact ⟨lit "A", by decide, by decide⟩
  · exact ⟨lit "a", by decide, by decide⟩

/-- The equivalence at `twoSpellings`, whose two sides both fail for host `a`. -/
theorem parseRule_denotes_iff_twoSpellings :
    ∃ e, ruleTree twoSpellings = .ok e ∧ ∀ q : HttpRequest,
      ((∃ m ∈ [({ host := lit "b", hostKind := .traefik, path := lit "/*" } : Matcher)],
        m.accepts q.toRequest = true) ↔ e.reads q.toRequest) ↔
        (e.reads q.toRequest → ∃ h, e.readsVia h q.toRequest) :=
  parseRule_denotes_iff parseRule_twoSpellings

end Statute.Docker
