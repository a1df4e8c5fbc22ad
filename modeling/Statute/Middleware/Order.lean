import Statute.Middleware.Tree

/-!
# The order in which a request passes its middlewares

The handlers of a route are built from the tree of its middlewares; the checks look at the flat chain of each
listener.  Both views agree:

* `Chain.edged` — the tree with the header operations and path rewrites of every group moved to its edge;
* `wrapRouteMiddleware_eq` — a request passes the flat chain of the edged tree, without its caches where the
  route bypasses them;
* `resolved_of_resolveMiddlewares` — the trees that the configuration resolves to name a listener for each group;
* `validateResolvedMiddlewares_eq_none` — an accepted tree passes the checks for every listener, named in it
  or not;
* `cache_after_policies` — no IP policy and no request identity comes behind an enabled cache.
-/

namespace Statute.Middleware

open Statute.Base

/-! ### Edged trees -/

namespace Chain

/-- Middlewares in front of a list. -/
def ofLeaves (mws : List Leaf) (rest : Chain) : Chain := mws.foldr .leaf rest

/-- The middlewares of a list that run at its edge, header operations first. -/
def hoisted (mws : Chain) : List Leaf := mws.own.filter Leaf.isHeaderOp ++ mws.own.filter Leaf.isPathOp

/-- What stays at its position; the groups inside are edged. -/
def body (bypass : Bool) : Chain → Chain
  | .nil => .nil
  | .leaf m rest =>
    if m.isHoisted || bypass && m.type == .cache then rest.body bypass else .leaf m (rest.body bypass)
  | .inOrder group rest => .inOrder (ofLeaves group.hoisted (group.body bypass)) (rest.body bypass)
  | .onListeners names group rest =>
    .onListeners names (ofLeaves group.hoisted (group.body bypass)) (rest.body bypass)

/-- Every group with its header operations and path rewrites at its edge, and without caches if they are
bypassed. -/
def edged (bypass : Bool) (mws : Chain) : Chain := ofLeaves mws.hoisted (mws.body bypass)

@[simp] theorem middlewareForListener_ofLeaves (name : Bytes) (mws : List Leaf) (rest : Chain) :
    (ofLeaves mws rest).middlewareForListener name = mws ++ rest.middlewareForListener name := by
  induction mws with
  | nil => rfl
  | cons m mws ih =>
    show m :: (ofLeaves mws rest).middlewareForListener name = _
    rw [ih, List.cons_append]

/-! ### Leaving out the caches -/

theorem isHoisted_of_cache {m : Leaf} (h : m.type = .cache) :
    m.isHeaderOp = false ∧ m.isPathOp = false ∧ m.isHoisted = false := by
  have hheader : m.isHeaderOp = false := by
    rw [Leaf.isHeaderOp, h]
    rfl
  have hpath : m.isPathOp = false := by
    rw [Leaf.isPathOp, h]
  exact ⟨hheader, hpath, by rw [Leaf.isHoisted, hheader, hpath]; rfl⟩

theorem hoisted_middlewareWithoutCache (mws : Chain) : mws.middlewareWithoutCache.hoisted = mws.hoisted := by
  have hown : ∀ p : Leaf → Bool, (∀ m : Leaf, m.type = .cache → p m = false) →
      mws.middlewareWithoutCache.own.filter p = mws.own.filter p := by
    intro p hp
    induction mws with
    | nil => rfl
    | leaf m rest ih =>
      rw [middlewareWithoutCache]
      split
      · rename_i hcache
        rw [ih, own, List.filter_cons_of_neg (by rw [hp m hcache]; exact Bool.false_ne_true)]
      · rw [own, own, List.filter_cons, List.filter_cons, ih]
    | inOrder group rest _ ihr => exact ihr
    | onListeners names group rest _ ihr => exact ihr
  rw [hoisted, hoisted, hown _ fun m h => (isHoisted_of_cache h).1, hown _ fun m h => (isHoisted_of_cache h).2.1]

theorem body_middlewareWithoutCache (bypass : Bool) (mws : Chain) :
    mws.middlewareWithoutCache.body bypass = mws.body true := by
  induction mws with
  | nil => rfl
  | leaf m rest ih =>
    rw [middlewareWithoutCache, body]
    split
    · rename_i hcache
      rw [ih, if_pos (by rw [hcache]; simp)]
    · rename_i hcache
      have hbeq : (m.type == MiddlewareType.cache) = false := beq_eq_false_iff_ne.mpr hcache
      rw [body, ih, hbeq, Bool.and_false, Bool.and_false]
  | inOrder group rest ihg ihr =>
    rw [middlewareWithoutCache, body, body, hoisted_middlewareWithoutCache, ihg, ihr]
  | onListeners names group rest ihg ihr =>
    rw [middlewareWithoutCache, body, body, hoisted_middlewareWithoutCache, ihg, ihr]

theorem named_middlewareWithoutCache {mws : Chain} (h : mws.Named) : mws.middlewareWithoutCache.Named := by
  induction mws with
  | nil => exact h
  | leaf m rest ih =>
    rw [middlewareWithoutCache]
    split
    · exact ih h
    · exact ih h
  | inOrder group rest ihg ihr => exact ⟨ihg h.1, ihr h.2⟩
  | onListeners names group rest ihg ihr => exact ⟨h.1, ihg h.2.1, ihr h.2.2⟩

theorem named_grouped {group : Chain} (h : group.Named) (bypass : Bool) : (group.grouped bypass).Named := by
  rw [grouped]
  split
  · exact named_middlewareWithoutCache h
  · exact h

/-- A group under a route that does not bypass its caches does not bypass them either. -/
theorem cacheBypass_append {mws : Chain} (group rest : Chain)
    (hleaves : mws.middlewareLeaves = group.middlewareLeaves ++ rest.middlewareLeaves)
    (h : mws.cacheBypass = false) : group.cacheBypass = false ∧ rest.cacheBypass = false := by
  rw [cacheBypass, hleaves, routeWritesCacheCredentials, routeWritesCacheAge, List.any_append, List.any_append,
    Bool.or_eq_false_iff, Bool.or_eq_false_iff, Bool.or_eq_false_iff] at h
  obtain ⟨⟨hgc, hrc⟩, hga, hra⟩ := h
  exact ⟨Bool.or_eq_false_iff.mpr ⟨hgc, hga⟩, Bool.or_eq_false_iff.mpr ⟨hrc, hra⟩⟩

theorem cacheBypass_leaf {m : Leaf} {rest : Chain} (h : (Chain.leaf m rest).cacheBypass = false) :
    rest.cacheBypass = false :=
  (cacheBypass_append (.leaf m .nil) rest rfl h).2

/-- Recomputing the bypass inside a group changes nothing. -/
theorem edged_grouped {group : Chain} {bypass : Bool} (h : bypass = false → group.cacheBypass = false) :
    (group.grouped bypass).edged (group.grouped bypass).cacheBypass = group.edged bypass := by
  cases bypass with
  | true =>
    show group.middlewareWithoutCache.edged _ = group.edged true
    rw [edged, edged, hoisted_middlewareWithoutCache, body_middlewareWithoutCache]
  | false =>
    show group.edged group.cacheBypass = group.edged false
    rw [h rfl]

end Chain

/-! ### The handlers and the flat chain -/

variable {mws : Chain}

theorem wrapRouteMiddleware_of_each {base : Bytes → List Leaf} {name : Bytes}
    (h : wrapEach tracing mws.cacheBypass mws base name =
      (mws.body mws.cacheBypass).middlewareForListener name ++ base name) :
    wrapRouteMiddleware tracing mws base name =
      (mws.edged mws.cacheBypass).middlewareForListener name ++ base name := by
  rw [wrapRouteMiddleware, Chain.edged, Chain.middlewareForListener_ofLeaves, Chain.hoisted, List.append_assoc,
    List.append_assoc, ← h]
  rfl

theorem listenerMatches_of_ne_nil {names : List Bytes} (h : names ≠ []) (name : Bytes) :
    listenerMatches names name = names.contains name := by
  rw [listenerMatches, beq_eq_false_iff_ne.mpr h, Bool.false_or]

/-- The loop of a group, by induction on the size of the tree: a group inside is wrapped without its caches,
so it is not a part of the tree itself. -/
theorem wrapEach_eq (n : ℕ) : ∀ (mws : Chain) (bypass : Bool) (base : Bytes → List Leaf) (name : Bytes), mws.size ≤ n →
    mws.Named → (bypass = false → mws.cacheBypass = false) →
    wrapEach tracing bypass mws base name = (mws.body bypass).middlewareForListener name ++ base name := by
  induction n with
  | zero =>
    intro mws bypass base name hsize hnamed hbypass
    cases mws with
    | nil => rw [wrapEach]; rfl
    | leaf m rest => exact absurd hsize (Nat.not_succ_le_zero _)
    | inOrder group rest => exact absurd hsize (Nat.not_succ_le_zero _)
    | onListeners names group rest => exact absurd hsize (Nat.not_succ_le_zero _)
  | succ n ih =>
    intro mws bypass base name hsize hnamed hbypass
    have hgroup : ∀ (group : Chain) (next : Bytes → List Leaf), group.size ≤ n → group.Named →
        (bypass = false → group.cacheBypass = false) →
        wrapRouteMiddleware tracing (group.grouped bypass) next name =
          (group.edged bypass).middlewareForListener name ++ next name := by
      intro group next hsize hnamed hbypass
      rw [← Chain.edged_grouped hbypass]
      exact wrapRouteMiddleware_of_each (ih _ _ next name ((Chain.size_grouped bypass group).trans hsize)
        (Chain.named_grouped hnamed bypass) id)
    cases mws with
    | nil => rw [wrapEach]; rfl
    | leaf m rest =>
      have hrest := ih rest bypass base name (Nat.le_of_succ_le_succ hsize) hnamed
        fun h => Chain.cacheBypass_leaf (hbypass h)
      rw [wrapEach, Chain.body]
      cases bypass && m.type == MiddlewareType.cache with
      | true =>
        rw [Bool.or_true, if_pos rfl, if_pos rfl]
        exact hrest
      | false =>
        rw [Bool.or_false, if_neg Bool.false_ne_true]
        show (if m.isHoisted then _ else m :: wrapEach tracing bypass rest base name) = _
        split
        · exact hrest
        · rw [hrest]
          rfl
    | inOrder group rest =>
      simp only [Chain.size] at hsize
      have hparts := fun h => Chain.cacheBypass_append group rest rfl (hbypass h)
      have hrest := ih rest bypass base name (by omega) hnamed.2 fun h => (hparts h).2
      rw [wrapEach, hgroup group _ (by omega) hnamed.1 fun h => (hparts h).1, hrest, ← List.append_assoc]
      rfl
    | onListeners names group rest =>
      simp only [Chain.size] at hsize
      have hparts := fun h => Chain.cacheBypass_append group rest rfl (hbypass h)
      have hrest := ih rest bypass base name (by omega) hnamed.2.2 fun h => (hparts h).2
      rw [wrapEach]
      show (if listenerMatches names name then _ else wrapEach tracing bypass rest base name) = _
      rw [listenerMatches_of_ne_nil hnamed.1, hgroup group _ (by omega) hnamed.2.1 fun h => (hparts h).1, hrest,
        Chain.body, Chain.middlewareForListener]
      split
      · rw [← List.append_assoc]
        rfl
      · rfl

/-- The handlers of a route pass the flat chain of its edged tree. -/
theorem wrapRouteMiddleware_eq (hnamed : mws.Named) (base : Bytes → List Leaf) (name : Bytes) :
    wrapRouteMiddleware tracing mws base name =
      (mws.edged mws.cacheBypass).middlewareForListener name ++ base name :=
  wrapRouteMiddleware_of_each (wrapEach_eq mws.size mws _ base name (Nat.le_refl _) hnamed id)

/-! ### What edging keeps -/

/-- The middlewares a route keeps. -/
def Leaf.isKept (bypass : Bool) (m : Leaf) : Bool := !(bypass && m.type == .cache)

theorem isHoisted_of_mem_hoisted : ∀ m ∈ mws.hoisted, m.isHoisted = true := by
  intro m hm
  rcases List.mem_append.mp hm with h | h
  · rw [Leaf.isHoisted, (List.mem_filter.mp h).2, Bool.true_or]
  · rw [Leaf.isHoisted, (List.mem_filter.mp h).2, Bool.or_true]

theorem filter_hoisted (mws : Chain) : mws.hoisted.filter (fun m => !m.isHoisted) = [] := by
  rw [List.filter_eq_nil_iff]
  intro m hm
  rw [isHoisted_of_mem_hoisted m hm]
  exact Bool.false_ne_true

/-- The other middlewares keep their order. -/
theorem filter_edged (bypass : Bool) (name : Bytes) (mws : Chain) :
    ((mws.edged bypass).middlewareForListener name).filter (fun m => !m.isHoisted) =
      (mws.middlewareForListener name).filter (fun m => !m.isHoisted && m.isKept bypass) := by
  have hbody : ((mws.body bypass).middlewareForListener name).filter (fun m => !m.isHoisted) =
      (mws.middlewareForListener name).filter (fun m => !m.isHoisted && m.isKept bypass) := by
    induction mws with
    | nil => rfl
    | leaf m rest ih =>
      rw [Chain.body, Chain.middlewareForListener, List.filter_cons, ← ih, Leaf.isKept]
      cases hm : m.isHoisted with
      | true => rfl
      | false =>
        cases hcache : (bypass && m.type == MiddlewareType.cache) with
        | true => rfl
        | false =>
          show List.filter _ (m :: (rest.body bypass).middlewareForListener name) = _
          rw [List.filter_cons, hm]
          rfl
    | inOrder group rest ihg ihr =>
      rw [Chain.body, Chain.middlewareForListener, Chain.middlewareForListener,
        Chain.middlewareForListener_ofLeaves, List.filter_append, List.filter_append, List.filter_append,
        filter_hoisted, ihg, ihr, List.nil_append]
    | onListeners names group rest ihg ihr =>
      rw [Chain.body, Chain.middlewareForListener, Chain.middlewareForListener]
      split
      · rw [Chain.middlewareForListener_ofLeaves, List.filter_append, List.filter_append, List.filter_append,
          filter_hoisted, ihg, ihr, List.nil_append]
      · exact ihr
  rw [Chain.edged, Chain.middlewareForListener_ofLeaves, List.filter_append, filter_hoisted, List.nil_append, hbody]

/-- A middleware is a header operation, a path rewrite, or stays where it is. -/
theorem Leaf.edge_cases (m : Leaf) :
    (m.isHeaderOp = true ∧ m.isPathOp = false ∧ m.type ≠ .cache) ∨
      (m.isHeaderOp = false ∧ m.isPathOp = true ∧ m.type ≠ .cache) ∨
      (m.isHeaderOp = false ∧ m.isPathOp = false) := by
  rw [Leaf.isHeaderOp, Leaf.isPathOp]
  cases m.type <;> decide

/-- No middleware is lost or doubled. -/
theorem perm_edged (bypass : Bool) (name : Bytes) (mws : Chain) :
    ((mws.edged bypass).middlewareForListener name).Perm
      ((mws.middlewareForListener name).filter (Leaf.isKept bypass)) := by
  rw [Chain.edged, Chain.middlewareForListener_ofLeaves]
  induction mws with
  | nil => exact List.Perm.refl _
  | leaf m rest ih =>
    rw [Chain.body, Chain.middlewareForListener, Chain.hoisted, Chain.own, List.filter_cons, List.filter_cons,
      List.filter_cons, Leaf.isHoisted]
    have hkept : m.type ≠ .cache → m.isKept bypass = true := by
      intro hcache
      rw [Leaf.isKept, beq_eq_false_iff_ne.mpr hcache, Bool.and_false]
      rfl
    rcases m.edge_cases with ⟨hheader, hpath, hcache⟩ | ⟨hheader, hpath, hcache⟩ | ⟨hheader, hpath⟩
    · rw [hheader, hpath, hkept hcache]
      exact ih.cons m
    · rw [hheader, hpath, hkept hcache]
      refine List.Perm.trans ?_ (ih.cons m)
      show (_ ++ (m :: _) ++ _).Perm _
      rw [List.append_assoc, List.cons_append]
      refine List.perm_middle.trans (List.Perm.cons m ?_)
      rw [← List.append_assoc]
      exact List.Perm.refl _
    · rw [hheader, hpath, Leaf.isKept]
      cases bypass && m.type == MiddlewareType.cache with
      | true => exact ih
      | false => exact List.perm_middle.trans (ih.cons m)
  | inOrder group rest ihg ihr =>
    rw [Chain.body, Chain.middlewareForListener, Chain.middlewareForListener,
      Chain.middlewareForListener_ofLeaves, List.filter_append]
    exact (List.perm_append_comm_assoc _ _ _).trans (ihg.append ihr)
  | onListeners names group rest ihg ihr =>
    rw [Chain.body, Chain.middlewareForListener, Chain.middlewareForListener]
    split
    · rw [Chain.middlewareForListener_ofLeaves, List.filter_append]
      exact (List.perm_append_comm_assoc _ _ _).trans (ihg.append ihr)
    · exact ihr

/-! ### What resolving ensures -/

section Resolve

variable {μ ε : Type} {resolve : μ → Except ε Leaf}

theorem bind_eq_ok {α β ε : Type} {x : Except ε α} {f : α → Except ε β} {b : β} (h : x >>= f = .ok b) :
    ∃ a, x = .ok a ∧ f a = .ok b := by
  cases x with
  | error e => cases h
  | ok a => exact ⟨a, rfl, h⟩

theorem mapError_eq_ok {α ε ε' : Type} {x : Except ε α} {f : ε → ε'} {a : α} (h : x.mapError f = .ok a) :
    x = .ok a := by
  cases x with
  | error e => cases h
  | ok a' =>
    cases h
    rfl

theorem eq_of_accept {out mws : Chain} (h : (accept out : Except (ResolveError ε) Chain) = .ok mws) :
    mws = out ∧ validateResolvedMiddlewares mws = none := by
  rw [accept] at h
  split at h
  · cases h
  · rename_i hnone
    cases h
    exact ⟨rfl, hnone⟩

theorem named_of_resolveEach {declared : Declared μ} : ∀ {i : ℕ} {mws : Chain},
    resolveEach resolve i declared = .ok mws → mws.Named := by
  induction declared with
  | nil =>
    intro i mws h
    cases h
    trivial
  | leaf m rest ih =>
    intro i mws h
    obtain ⟨m', -, h⟩ := bind_eq_ok h
    obtain ⟨rest', hrest, h⟩ := bind_eq_ok h
    cases h
    show rest'.Named
    exact ih hrest
  | inOrder values rest ihv ihr =>
    intro i mws h
    obtain ⟨group, hgroup, h⟩ := bind_eq_ok h
    obtain ⟨rest', hrest, h⟩ := bind_eq_ok h
    obtain ⟨out, hout, hgroup⟩ := bind_eq_ok (mapError_eq_ok hgroup)
    cases h
    exact ⟨(eq_of_accept hgroup).1 ▸ ihv hout, ihr hrest⟩
  | onListeners names values rest ihv ihr =>
    intro i mws h
    rw [resolveEach] at h
    split at h
    · cases h
    · rename_i hnames
      obtain ⟨group, hgroup, h⟩ := bind_eq_ok h
      obtain ⟨rest', hrest, h⟩ := bind_eq_ok h
      obtain ⟨out, hout, hgroup⟩ := bind_eq_ok (mapError_eq_ok hgroup)
      cases h
      exact ⟨hnames, (eq_of_accept hgroup).1 ▸ ihv hout, ihr hrest⟩

/-- **Resolved trees.**  Every group of a tree that resolves names a listener, and the tree is accepted. -/
theorem resolved_of_resolveMiddlewares {declared : Declared μ}
    (h : resolveMiddlewares resolve declared = .ok mws) :
    mws.Named ∧ validateResolvedMiddlewares mws = none := by
  obtain ⟨out, hout, haccept⟩ := bind_eq_ok h
  obtain ⟨rfl, hnone⟩ := eq_of_accept haccept
  exact ⟨named_of_resolveEach hout, hnone⟩

end Resolve

/-! ### The check of every listener -/

/-- A middleware that must see every request. -/
def Leaf.isPolicy (m : Leaf) : Bool := m.isIPPolicy || m.type == .requestID

/-- No policy comes behind an enabled cache. -/
def CacheOrdered (mws : List Leaf) : Prop :=
  mws.Pairwise fun a b => a.isEnabledCache = true → b.isPolicy = false

theorem cachePolicyOrderLoop_some (i cache : ℕ) (mws : List Leaf) :
    cachePolicyOrderLoop i (some cache) mws = none ↔ ∀ m ∈ mws, m.isPolicy = false := by
  induction mws generalizing i with
  | nil => simp [cachePolicyOrderLoop]
  | cons mw rest ih =>
    rw [cachePolicyOrderLoop, List.forall_mem_cons, ← ih (i + 1), Leaf.isPolicy]
    cases hip : mw.isIPPolicy with
    | true => simp
    | false =>
      by_cases hid : mw.type = .requestID
      · simp [hid]
      · simp [hid]

theorem isPolicy_of_isEnabledCache {m : Leaf} (h : m.isEnabledCache = true) : m.isPolicy = false := by
  have hcache : m.type = .cache := by
    rw [Leaf.isEnabledCache, Bool.and_eq_true, beq_iff_eq] at h
    exact h.1
  rw [Leaf.isPolicy, Leaf.isIPPolicy, hcache]
  rfl

theorem cachePolicyOrderLoop_none (i : ℕ) (mws : List Leaf) :
    cachePolicyOrderLoop i none mws = none ↔ CacheOrdered mws := by
  induction mws generalizing i with
  | nil => simp [cachePolicyOrderLoop, CacheOrdered]
  | cons mw rest ih =>
    rw [cachePolicyOrderLoop, CacheOrdered, List.pairwise_cons]
    cases hcache : mw.isEnabledCache with
    | false =>
      simp only [Bool.false_and, Bool.false_eq_true, if_false, false_implies, implies_true, true_and]
      exact ih (i + 1)
    | true =>
      have hpolicy := isPolicy_of_isEnabledCache hcache
      rw [Leaf.isPolicy, Bool.or_eq_false_iff, beq_eq_false_iff_ne] at hpolicy
      have hrest := cachePolicyOrderLoop_some (i + 1) i rest
      simp only [Option.isNone_none, Bool.and_self, if_true, hpolicy.1, Bool.false_eq_true, if_false, hpolicy.2, hrest,
        forall_const]
      constructor
      · intro h
        exact ⟨h, List.Pairwise.imp_of_mem (fun _ hb _ _ => h _ hb) (List.pairwise_of_forall fun _ _ => trivial)⟩
      · intro h
        exact h.1

theorem Chain.sublist_of_unnamed {name : Bytes} (h : name ∉ mws.listenerNames) (other : Bytes) :
    (mws.middlewareForListener name).Sublist (mws.middlewareForListener other) := by
  induction mws with
  | nil => exact List.Sublist.refl _
  | leaf m rest ih => exact (ih h).cons_cons m
  | inOrder group rest ihg ihr =>
    rw [listenerNames, List.mem_append, not_or] at h
    exact (ihg h.1).append (ihr h.2)
  | onListeners names group rest ihg ihr =>
    rw [listenerNames, List.mem_append, List.mem_append, not_or, not_or] at h
    obtain ⟨⟨hnames, hgroup⟩, hrest⟩ := h
    have hskip : ¬ names.contains name = true := fun hmem => hnames (List.contains_iff_mem.mp hmem)
    rw [middlewareForListener, middlewareForListener, if_neg hskip]
    split
    · exact (ihr hrest).trans (List.sublist_append_right _ _)
    · exact ihr hrest

/-- An accepted tree: the chain of every listener is a part, in order, of one that passes the checks. -/
theorem validateResolvedMiddlewares_eq_none (h : validateResolvedMiddlewares mws = none)
    (name : Bytes) :
    ∃ checked, validateChain checked = none ∧ (mws.middlewareForListener name).Sublist checked := by
  rw [validateResolvedMiddlewares, List.findSome?_eq_none_iff] at h
  by_cases hname : name ∈ mws.listenerNames
  · exact ⟨_, h name (List.mem_cons_of_mem _ hname), List.Sublist.refl _⟩
  · exact ⟨_, h [] List.mem_cons_self, Chain.sublist_of_unnamed hname []⟩

theorem validateChain_eq_none {mws : List Leaf} (h : validateChain mws = none) :
    validateCachePolicyOrder mws = none ∧ validateRequestIDOwnership mws = none ∧
      validateBasicAuthCredentials mws = none := by
  rw [validateChain, Option.or_eq_none_iff, Option.or_eq_none_iff, Option.or_eq_none_iff] at h
  exact ⟨h.1.1.2, h.1.2, h.2⟩

/-- The chain of a listener that an accepted tree makes is in order. -/
theorem cacheOrdered_of_accepted (h : validateResolvedMiddlewares mws = none) (name : Bytes) :
    CacheOrdered (mws.middlewareForListener name) := by
  obtain ⟨checked, hchecked, hsub⟩ := validateResolvedMiddlewares_eq_none h name
  have hordered : CacheOrdered checked := (cachePolicyOrderLoop_none 0 checked).mp (validateChain_eq_none hchecked).1
  exact List.Pairwise.sublist hsub hordered

theorem isHoisted_of_isEnabledCache {m : Leaf} (h : m.isEnabledCache = true) : m.isHoisted = false := by
  rw [Leaf.isEnabledCache, Bool.and_eq_true, beq_iff_eq] at h
  exact (Chain.isHoisted_of_cache h.1).2.2

theorem isHoisted_of_isPolicy {m : Leaf} (h : m.isPolicy = true) : m.isHoisted = false := by
  rw [Leaf.isPolicy, Leaf.isIPPolicy] at h
  rw [Leaf.isHoisted, Leaf.isHeaderOp, Leaf.isPathOp]
  revert h
  cases m.type <;> decide

/-- Moving hoisted middlewares to the edges and leaving caches out keeps the order. -/
theorem cacheOrdered_edged {name : Bytes} (h : CacheOrdered (mws.middlewareForListener name))
    (bypass : Bool) : CacheOrdered ((mws.edged bypass).middlewareForListener name) := by
  have hkept : CacheOrdered (((mws.edged bypass).middlewareForListener name).filter fun m => !m.isHoisted) := by
    rw [filter_edged]
    exact List.Pairwise.sublist List.filter_sublist h
  rw [CacheOrdered, List.pairwise_filter] at hkept
  refine List.Pairwise.imp ?_ hkept
  intro a b hab hcache
  cases hpolicy : b.isPolicy with
  | false => rfl
  | true =>
    have hb : (!b.isHoisted) = true := by rw [isHoisted_of_isPolicy hpolicy]; rfl
    have ha : (!a.isHoisted) = true := by rw [isHoisted_of_isEnabledCache hcache]; rfl
    rw [← hpolicy]
    exact hab ha hb hcache

/-- **Policies before caches.**  On every listener, a request passes the middlewares that the tree holds for
it, in the order of the tree with the header operations and path rewrites of each group at its edge, and
without the caches where the route bypasses them.  So no IP policy and no request identity of an accepted
tree comes behind an enabled cache. -/
theorem cache_after_policies (mws : Chain) (hnamed : mws.Named) (haccepted : validateResolvedMiddlewares mws = none)
    (name : Bytes) :
    (∀ base, wrapRouteMiddleware tracing mws base name =
      (mws.edged mws.cacheBypass).middlewareForListener name ++ base name) ∧
    ((mws.edged mws.cacheBypass).middlewareForListener name).Perm
      ((mws.middlewareForListener name).filter (Leaf.isKept mws.cacheBypass)) ∧
    ((mws.edged mws.cacheBypass).middlewareForListener name).filter (fun m => !m.isHoisted) =
      (mws.middlewareForListener name).filter (fun m => !m.isHoisted && m.isKept mws.cacheBypass) ∧
    ∀ before policy after, wrapRouteMiddleware tracing mws (fun _ => []) name = before ++ policy :: after →
      policy.isPolicy = true → ∀ m ∈ before, m.isEnabledCache = false := by
  refine ⟨fun base => wrapRouteMiddleware_eq hnamed base name, perm_edged _ name mws, filter_edged _ name mws, ?_⟩
  intro before policy after htrace hpolicy m hm
  rw [wrapRouteMiddleware_eq hnamed, List.append_nil] at htrace
  have hordered := cacheOrdered_edged (cacheOrdered_of_accepted haccepted name) mws.cacheBypass
  rw [htrace, CacheOrdered, List.pairwise_append] at hordered
  cases hcache : m.isEnabledCache with
  | false => rfl
  | true =>
    have hnot := hordered.2.2 m hm policy List.mem_cons_self hcache
    rw [hpolicy] at hnot
    exact absurd hnot (by decide)

/-- An IP policy on one listener, before a cache on all of them. -/
def declaredCache : Declared Leaf :=
  .onListeners [lit "a"] (.leaf { type := .allowIPs } .nil) (.leaf { type := .cache, cacheTTL := 60 } .nil)

def guardedCache : Chain :=
  .onListeners [lit "a"] (.leaf { type := .allowIPs } .nil) (.leaf { type := .cache, cacheTTL := 60 } .nil)

theorem cache_after_policies_guarded :
    resolveMiddlewares (fun m => (.ok m : Except Empty Leaf)) declaredCache = .ok guardedCache ∧
    wrapRouteMiddleware tracing guardedCache (fun _ => []) (lit "a") =
      [{ type := .allowIPs }, { type := .cache, cacheTTL := 60 }] := by
  have hresolve : resolveMiddlewares (fun m => (.ok m : Except Empty Leaf)) declaredCache = .ok guardedCache := rfl
  obtain ⟨hnamed, haccepted⟩ := resolved_of_resolveMiddlewares hresolve
  obtain ⟨htrace, -⟩ := cache_after_policies guardedCache hnamed haccepted (lit "a")
  refine ⟨hresolve, ?_⟩
  rw [htrace]
  decide +kernel

end Statute.Middleware
