import Mathlib.Data.List.Dedup
import Mathlib.Data.List.FinRange
import Mathlib.Logic.Function.Basic
import Statute.Migrate.Inventory

/-!
# Middleware chains

`generator.chain` (`middleware.go`) translates one Traefik middleware: the translators of the middleware
families first, then the references of a `chain` middleware, each of which is translated by a recursive
call.  The search marks the middlewares it is visiting and those it has attempted, it refuses to nest more
than 64 deep, and it keeps a table of the chains it registered.  A failure is nowhere but in the findings
of the objects, so a middleware is registered when no blocking finding is left on it.

* `Alien` — the paths that no translator marks: those of chain references and of notes;
* `Treated` — what the translators keep: a blocking finding at an alien path stays blocking;
* `translateAll_of_pure` — a middleware that is nothing but a chain gets no values from the translators.
-/

namespace Statute.Migrate

open Statute.Base

/-! ### References -/

def chainPath : Bytes := lit "chain.middlewares"

/-- The type assertion to a string. -/
def Value.asText : Value → Option Bytes
  | .str s => some s
  | _ => none

def validStrings (values : List Bytes) : Bool := values.all fun v => !v.isEmpty && literal v

/-- `stringList`; `none` where it fails. -/
def stringList (v : Value) (comma : Bool) : Option (List Bytes) :=
  match comma, v with
  | true, .str s =>
    if 256 ≤ s.count (ch ',') then none
    else some ((split (ch ',') s).map trimSpace) |>.filter validStrings
  | false, .list items =>
    if 256 < items.length then none else (items.mapM Value.asText).filter validStrings
  | _, _ => none

def qualified (name : Bytes) (provider : Provider) : Bytes :=
  if containsByte name (ch '@') then name else name ++ lit "@" ++ provider.text

/-- The list that `expandChain` reads. -/
def Object.chainList (o : Object) : Option (List Bytes) := stringList (o.value chainPath) (o.provider == .docker)

/-- The identities a middleware refers to. -/
def Object.references (o : Object) : List Bytes := (o.chainList.getD []).map (qualified · o.provider)

/-! ### The families of middleware -/

def checkMiddlewareShape (o : Object) : Object :=
  if (o.data.map fun e => toLower (cut e.1 (ch '.')).1).dedup.length ≠ 1 then
    o.note (lit "$shape") .manual (lit "a Traefik middleware must define exactly one middleware type")
  else o

/-- The switch of `classifyMiddlewareDifferences`. -/
def difference (family : Bytes) : Option (Classification × Bytes) :=
  if family = lit "buffering" then
    some (.manual, lit "buffering affects request admission, response buffering and streaming; explicitly select Statute RequestBuffer resources and route policy")
  else if family = lit "retry" then
    some (.manual, lit "retry attempts, idempotency and request/response buffering differ; review before mapping")
  else if family ∈ [lit "stripprefix", lit "addprefix", lit "replacepath", lit "replacepathregex"] then
    some (.manual, lit "native rewrites are hoisted once at route entry; verify headers, middleware order and Retry re-entry")
  else if family = lit "plugin" then
    some (.outOfScope, lit "plugins require compiled Go behavior outside HTTP migration")
  else if family ∈ [lit "basicauth", lit "forwardauth", lit "digestauth"] then
    some (.manual, lit "security policy requires explicit compiled registration and secret references; credentials are withheld")
  else none

/-- One round of `classifyMiddlewareDifferences`. -/
def classifyDifference (o : Object) (f : Field) : Object :=
  match difference (cut (toLower f.path) (ch '.')).1 with
  | some (c, reason) => o.mark f.path c reason
  | none => o

def classifyMiddlewareDifferences (o : Object) : Object := o.fields.foldl classifyDifference o

/-- The functions of `chain` that translate a family, in the order of their calls. -/
inductive Translator where
  | redirectMiddleware
  | securityHeaders
  | headers
  | rateLimit
  | basicAuth
  | nativeRewrite
  | buffering
  | retry
  | compression
  | ipAllowList
deriving DecidableEq

def Translator.families : Translator → List Bytes
  | .redirectMiddleware => [lit "redirectScheme", lit "redirectRegex"]
  | .securityHeaders => [lit "headers"]
  | .headers => [lit "headers"]
  | .rateLimit => [lit "rateLimit"]
  | .basicAuth => [lit "basicAuth"]
  | .nativeRewrite => [lit "addPrefix", lit "replacePath", lit "replacePathRegex", lit "stripPrefix"]
  | .buffering => [lit "buffering"]
  | .retry => [lit "retry"]
  | .compression => [lit "compress"]
  | .ipAllowList => [lit "ipAllowList"]

def translators : List Translator :=
  [.redirectMiddleware, .securityHeaders, .headers, .rateLimit, .basicAuth, .nativeRewrite, .buffering, .retry,
    .compression, .ipAllowList]

/-- What a translator does to the object and to the chain it builds. -/
inductive Op (M : Type) where
  | mark (path : Bytes) (c : Classification) (reason : Bytes)
  | consume (path reason : Bytes)
  | note (path : Bytes) (c : Classification) (reason : Bytes)
  | bind (path : Bytes)
  | append (value : M)

def Within (families : List Bytes) (path : Bytes) : Prop := ∃ family ∈ families, toLower family <+: toLower path

instance (families : List Bytes) (path : Bytes) : Decidable (Within families path) :=
  inferInstanceAs (Decidable (∃ family ∈ families, toLower family <+: toLower path))

variable {M : Type}

def Op.apply (s : Object × List M) : Op M → Object × List M
  | .mark path c reason => (s.1.mark path c reason, s.2)
  | .consume path reason => (s.1.markConsumedValue path reason, s.2)
  | .note path c reason => (s.1.note path c reason, s.2)
  | .bind path => (s.1.bind path, s.2)
  | .append value => (s.1, s.2 ++ [value])

/-- A translator marks and binds fields of its own families only. -/
def Op.Local (families : List Bytes) : Op M → Prop
  | .mark path _ _ => Within families path
  | .consume path _ => Within families path
  | .note _ _ _ => True
  | .bind path => Within families path
  | .append _ => True

/-- The middleware values, `statute.InOrder`, and the translators: any functions of the object and the
chain so far that stay within their families. -/
structure Translators (M : Type) where
  inOrder : List M → M
  run : Translator → Object → List M → List (Op M)
  stays : ∀ t o values, ∀ op ∈ run t o values, op.Local t.families

/-- The paths under a family. -/
def below (family : Bytes) (keys : List Bytes) : List Bytes := keys.map fun key => family ++ lit "." ++ key

/-- The fields `sourceIPSelection` marks under its base. -/
def selectionKeys : List Bytes := [lit "depth", lit "excludedIPs", lit "ipv6Subnet"]

/-- The fields a translator marks, as its source names them. -/
def Translator.marks : Translator → List Bytes
  | .redirectMiddleware =>
    [lit "redirectScheme", lit "redirectRegex"] ++
      below (lit "redirectScheme") [lit "scheme", lit "port", lit "permanent", lit "forcePermanentRedirect"] ++
      below (lit "redirectRegex") [lit "regex", lit "replacement", lit "permanent", lit "statusCode"]
  | .securityHeaders | .headers => []
  | .rateLimit =>
    lit "rateLimit" :: below (lit "rateLimit") [lit "average", lit "period", lit "burst", lit "distributed"]
  | .basicAuth => below (lit "basicAuth") [lit "usersFile", lit "realm", lit "removeHeader", lit "users"]
  | .nativeRewrite =>
    [lit "addPrefix.prefix", lit "replacePath.path"] ++
      below (lit "replacePathRegex") [lit "regex", lit "replacement"] ++
      below (lit "stripPrefix") [lit "prefixes", lit "forceSlash"]
  | .buffering =>
    lit "buffering" :: below (lit "buffering") [lit "maxRequestBodyBytes", lit "memRequestBodyBytes",
      lit "maxResponseBodyBytes", lit "memResponseBodyBytes", lit "disableRequestBuffer",
      lit "disableResponseBuffer", lit "retryExpression"]
  | .retry => [lit "retry.attempts"]
  | .compression =>
    lit "compress" :: below (lit "compress") [lit "encodings", lit "defaultEncoding",
      lit "minResponseBodyBytes", lit "includedContentTypes", lit "excludedContentTypes"]
  | .ipAllowList =>
    [lit "ipAllowList.sourceRange", lit "ipallowlist.sourcerange", lit "ipAllowList.ipStrategy"] ++
      below (lit "ipAllowList.ipStrategy") selectionKeys

/-- Where a translator marks the fields it finds: under a map or in a list. -/
def Translator.marksUnder : Translator → List Bytes
  | .securityHeaders => [lit "headers."]
  | .headers => [lit "headers.customRequestHeaders.", lit "headers.customResponseHeaders."]
  | .rateLimit => [lit "rateLimit.sourceCriterion"]
  | .basicAuth => [lit "basicAuth.users["]
  | .compression =>
    below (lit "compress") [lit "encodings[", lit "includedContentTypes[", lit "excludedContentTypes["]
  | .ipAllowList => [lit "ipAllowList.ipStrategy.excludedIPs["]
  | .redirectMiddleware | .nativeRewrite | .buffering | .retry => []

/-- The operation is on a field that the translator marks. -/
def Op.names (t : Translator) : Op M → Bool
  | .mark path _ _ | .consume path _ | .bind path =>
    t.marks.contains path || t.marksUnder.any fun start => (toLower start).isPrefixOf (toLower path)
  | .note _ _ _ | .append _ => true

theorem Translator.marks_within (t : Translator) : ∀ path ∈ t.marks ++ t.marksUnder, Within t.families path := by
  cases t <;> decide +kernel

theorem Op.names_local {t : Translator} {op : Op M} (h : op.names t = true) : op.Local t.families := by
  have hpath : ∀ path, (t.marks.contains path ||
      t.marksUnder.any fun start => (toLower start).isPrefixOf (toLower path)) = true →
      Within t.families path := by
    intro path hnamed
    rw [Bool.or_eq_true, List.contains_iff_mem, List.any_eq_true] at hnamed
    rcases hnamed with hmem | ⟨start, hmem, hstart⟩
    · exact t.marks_within path (List.mem_append_left _ hmem)
    · obtain ⟨family, hfamily, hle⟩ := t.marks_within start (List.mem_append_right _ hmem)
      exact ⟨family, hfamily, hle.trans (List.isPrefixOf_iff_prefix.mp hstart)⟩
  cases op with
  | mark path | consume path | bind path => exact hpath path h
  | note | append => trivial

/-- The translators of the source: what they read off the values is left open, the fields they mark are
not. -/
def Translators.ofSource (inOrder : List M → M)
    (run : (t : Translator) → Object → List M → List {op : Op M // op.names t = true}) : Translators M where
  inOrder := inOrder
  run t o values := (run t o values).map Subtype.val
  stays := by
    intro t o values op hop
    obtain ⟨named, -, rfl⟩ := List.mem_map.mp hop
    exact Op.names_local named.2

/-- The object has something of the family; otherwise its translator returns at once. -/
def Object.defines (o : Object) (family : Bytes) : Bool :=
  !(o.value family).isNull || o.hasFieldPrefix (family ++ lit ".")

namespace Translators

variable (T : Translators M)

def translate (s : Object × List M) (t : Translator) : Object × List M :=
  if t.families.any s.1.defines then (T.run t s.1 s.2).foldl Op.apply s else s

/-- The calls of `chain` up to `expandChain`. -/
def translateAll (o : Object) : Object × List M :=
  translators.foldl T.translate (classifyMiddlewareDifferences (checkMiddlewareShape o), [])

end Translators

/-! ### The search -/

/-- The part of `generator` the search uses.  The objects are addressed by their position in the report,
and `chains` has its newest entry first. -/
structure Generator (n : ℕ) (M : Type) where
  objects : Fin n → Object
  chains : List (Bytes × List M) := []
  visiting : List Bytes := []
  attempted : List Bytes := []

namespace Generator

variable {n : ℕ}

def update (g : Generator n M) (i : Fin n) (o : Object) : Generator n M :=
  { g with objects := Function.update g.objects i o }

@[simp] theorem update_self (g : Generator n M) (i : Fin n) (o : Object) : (g.update i o).objects i = o := by
  show Function.update g.objects i o i = o
  exact Function.update_self i o g.objects

theorem update_of_ne {i j : Fin n} (h : j ≠ i) (g : Generator n M) (o : Object) :
    (g.update i o).objects j = g.objects j := by
  show Function.update g.objects i o j = g.objects j
  exact Function.update_of_ne h o g.objects

end Generator

/-- The object that `g.objects` has for an identity: the first of them. -/
def objectAt {n : ℕ} (objects : Fin n → Object) (id : Bytes) : Option (Fin n) :=
  (List.finRange n).find? fun i => (objects i).id == id

/-- One round of `indexObjects`. -/
def indexObject {n : ℕ} (objects : Fin n → Object) (i : Fin n) : Fin n → Object :=
  let clash := fun o : Object => o.note (lit "$identity") .manual (lit "duplicate provider-qualified identity")
  match objectAt objects (objects i).id with
  | some old =>
    if old = i then objects
    else
      let objects := Function.update objects old (clash (objects old))
      Function.update objects i (clash (objects i))
  | none => objects

def indexObjects {n : ℕ} (objects : Fin n → Object) : Fin n → Object := (List.finRange n).foldl indexObject objects

section Search

variable {n : ℕ}

/-- The calls of `chain` in `expandChain`: the generator afterwards, and the values of the middleware if it
is valid; `none` if the recursion did not end. -/
abbrev Call (n : ℕ) (M : Type) := Generator n M → Fin n → Option (Generator n M × Option (List M))

/-- The loop of `expandChain`. -/
def expandRefs (call : Call n M) (i : Fin n) : List Bytes → Generator n M → List M → Bool →
    Option (Generator n M × List M)
  | [], g, values, ok =>
    some (if ok then g.update i ((g.objects i).mark chainPath .translated
        (lit "provider-qualified middleware chain expanded in declaration order")) else g, values)
  | ref :: refs, g, values, ok =>
    let target := qualified ref (g.objects i).provider
    match objectAt g.objects target with
    | none => expandRefs call i refs g values false
    | some dep =>
      match call g dep with
      | none => none
      | some (g, none) =>
        let o := (g.objects i).mark chainPath .exact
          (lit "provider-qualified chain dependencies are reported separately")
        let o := o.note (lit "$middleware:" ++ target) .manual
          (lit "chain blocked by referenced middleware; see its field findings")
        expandRefs call i refs (g.update i o) values false
      | some (g, some child) =>
        if 256 < values.length + child.length then
          some (g.update i ((g.objects i).note (lit "$size") .unsupported
            (lit "expanded middleware chain exceeds 256 operations")), values)
        else expandRefs call i refs g (values ++ child) ok

def expandChain (call : Call n M) (g : Generator n M) (i : Fin n) (values : List M) :
    Option (Generator n M × List M) :=
  match (g.objects i).chainList with
  | none => some (g, values)
  | some refs => if refs.isEmpty then some (g, values) else expandRefs call i refs g values true

def classifyEmptyHeaders (o : Object) (values : List M) : Object :=
  if values.isEmpty && (o.value (lit "headers.stsSeconds")).isNull &&
      (!(o.value (lit "headers")).isNull || o.hasFieldPrefix (lit "headers.")) && o.ready then
    o.note (lit "$empty-header-policy") .manual
      (lit "source header middleware with every feature disabled is invalid; remove it or select an active header policy")
  else o

def nativeMiddlewareReady (o : Object) (values : List M) : Bool :=
  o.readyWithBindings && (!values.isEmpty || !(o.value (lit "headers.stsSeconds")).isNull ||
    !(o.value chainPath).isNull)

/-- What `chain` does once the references are expanded: register the middleware if it is ready. -/
def settle (T : Translators M) (g : Generator n M) (i : Fin n) (values : List M) :
    Generator n M × Option (List M) :=
  let o := classifyEmptyHeaders (g.objects i) values
  let values := if !values.isEmpty && (o.value chainPath).isNull then [T.inOrder values] else values
  let g := { g.update i o with visiting := g.visiting.erase o.id }
  if nativeMiddlewareReady o values then ({ g with chains := (o.id, values) :: g.chains }, some values)
  else (g, none)

/-- `generator.chain`, with a bound on the depth of its recursion. -/
def chain (T : Translators M) : ℕ → Call n M
  | 0, _, _ => none
  | fuel + 1, g, i =>
    let o := g.objects i
    match g.chains.lookup o.id with
    | some values => some (g, some values)
    | none =>
      if o.id ∈ g.visiting then
        some (g.update i (o.note (lit "$cycle") .manual (lit "middleware reference cycle")), none)
      else if o.id ∈ g.attempted then some (g, none)
      else if 64 ≤ g.visiting.length then
        some ({ g.update i (o.note (lit "$depth") .unsupported (lit "middleware chain nesting exceeds 64")) with
          attempted := o.id :: g.attempted }, none)
      else
        let (o', values) := T.translateAll o
        let g := { g.update i o' with visiting := o.id :: g.visiting, attempted := o.id :: g.attempted }
        (expandChain (chain T fuel) g i values).map fun (g, values) => settle T g i values

/-- The calls of `chain` in `generate`, one for each middleware. -/
def chains (T : Translators M) (fuel : ℕ) (objects : Fin n → Object) : Option (Generator n M) :=
  (List.finRange n).foldlM (fun g i => (chain T fuel g i).map Prod.fst) { objects := objects }

end Search

/-! ### Paths that no translator reaches -/

/-- The families whose fields are marked outside `expandChain`, in lower case. -/
def nativeFamilies : List Bytes :=
  [lit "redirectscheme", lit "redirectregex", lit "headers", lit "ratelimit", lit "basicauth", lit "addprefix",
    lit "replacepath", lit "replacepathregex", lit "stripprefix", lit "buffering", lit "retry", lit "compress",
    lit "ipallowlist", lit "plugin", lit "forwardauth", lit "digestauth"]

/-- **Alien.**  The path of a chain reference, of a note, or of a key that is no plain name. -/
def Alien (path : Bytes) : Prop := ∃ start ∈ [lit "chain", lit "$", lit "["], start <+: toLower path

def NotePath (path : Bytes) : Prop := lit "$" <+: path

instance : DecidablePred NotePath := fun path => inferInstanceAs (Decidable (lit "$" <+: path))

theorem toLower_mono {a b : Bytes} (h : a <+: b) : toLower a <+: toLower b := h.map lowerByte

variable {path : Bytes}

theorem NotePath.alien (h : NotePath path) : Alien path :=
  ⟨lit "$", by decide, toLower_mono h⟩

theorem alien_chainPath (h : chainPath <+: path) : Alien path :=
  ⟨lit "chain", by decide, List.IsPrefix.trans (by decide) (toLower_mono h)⟩

theorem Alien.mono {a b : Bytes} (h : Alien a) (hab : a <+: b) : Alien b := by
  obtain ⟨start, hmem, hstart⟩ := h
  exact ⟨start, hmem, hstart.trans (toLower_mono hab)⟩

theorem Alien.not_family {family : Bytes} (h : Alien path) (hfamily : family ∈ nativeFamilies) :
    ¬ family <+: toLower path := by
  obtain ⟨start, hmem, hstart⟩ := h
  intro hpath
  -- of two starts of one path one starts the other, and no family starts like an alien path
  have hapart : ∀ start ∈ [lit "chain", lit "$", lit "["], ∀ family ∈ nativeFamilies,
      ¬ start <+: family ∧ ¬ family <+: start := by decide
  rcases List.prefix_or_prefix_of_prefix hstart hpath with hle | hle
  · exact (hapart start hmem family hfamily).1 hle
  · exact (hapart start hmem family hfamily).2 hle

theorem native_of_translator (t : Translator) {family : Bytes} (h : family ∈ t.families) :
    toLower family ∈ nativeFamilies := by
  have hall : ∀ family ∈ t.families, toLower family ∈ nativeFamilies := by
    cases t <;> decide
  exact hall family h

theorem native_ne_nil {family : Bytes} (h : family ∈ nativeFamilies) : family ≠ [] := by
  have hall : ∀ family ∈ nativeFamilies, family ≠ [] := by decide
  exact hall family h

/-- A path that a translator, or the classification of differences, may mark. -/
def Native (path : Bytes) : Prop := ∃ family ∈ nativeFamilies, family <+: toLower path

theorem Within.native {t : Translator} (h : Within t.families path) : Native path := by
  obtain ⟨family, hmem, hpath⟩ := h
  exact ⟨toLower family, native_of_translator t hmem, hpath⟩

theorem Native.ne_nil {base : Bytes} (h : Native base) : base ≠ [] := by
  obtain ⟨family, hmem, hpath⟩ := h
  rintro rfl
  exact native_ne_nil hmem (List.prefix_nil.mp hpath)

variable {provider : Provider}

theorem toLower_le_of_covers {base : Bytes} (hbase : base ≠ [])
    (h : Object.covers provider base path = true) : toLower base <+: toLower path := by
  rw [Object.covers, List.isEmpty_eq_false_iff.mpr hbase, Bool.false_or, Bool.or_eq_true, Bool.or_eq_true,
    beq_iff_eq, hasPrefix_iff, hasPrefix_iff] at h
  have hle : provider.fold base <+: provider.fold path := by
    rcases h with (heq | hle) | hle
    · rw [heq]
    · exact (List.prefix_append _ _).trans hle
    · exact (List.prefix_append _ _).trans hle
  cases provider with
  | file => exact toLower_mono hle
  | docker => exact hle

theorem covers_native {base : Bytes} (hbase : Native base) (hpath : Alien path) :
    Object.covers provider base path = false := by
  rw [Bool.eq_false_iff]
  intro hcovers
  have hle := toLower_le_of_covers hbase.ne_nil hcovers
  obtain ⟨family, hmem, hfamily⟩ := hbase
  exact hpath.not_family hmem (hfamily.trans hle)

theorem covers_chainPath (hpath : NotePath path) :
    Object.covers provider chainPath path = false := by
  rw [Bool.eq_false_iff]
  intro hcovers
  have hle := toLower_le_of_covers (by decide) hcovers
  have hnote : lit "$" <+: toLower path := toLower_mono hpath
  rcases List.prefix_or_prefix_of_prefix hnote hle with h | h
  · exact absurd h (by decide)
  · exact absurd h (by decide)

/-! ### What a translator keeps -/

/-- The bindings of the object are all fields of a translator. -/
def Object.BindsNative (o : Object) : Prop := ∀ path ∈ o.bindingFields, Native path

/-- **Treated.**  `o'` is `o` after operations that reach no alien path. -/
structure Treated (o o' : Object) : Prop where
  source : o'.source = o.source
  held : ∀ p : Bytes → Prop, (∀ path, p path → Alien path) → o.Held p → o'.Held p
  binds : o.BindsNative → o'.BindsNative

section Treated

variable {o o' o'' : Object}

theorem Treated.refl (o : Object) : Treated o o := ⟨rfl, fun _ _ h => h, fun h => h⟩

theorem Treated.trans (h : Treated o o') (h' : Treated o' o'') : Treated o o'' :=
  ⟨h'.source.trans h.source, fun p hp hheld => h'.held p hp (h.held p hp hheld), fun hb => h'.binds (h.binds hb)⟩

theorem treated_note (o : Object) (path : Bytes) (c : Classification) (reason : Bytes) :
    Treated o (o.note path c reason) := by
  refine ⟨Object.note_source path c reason, fun _ _ h => h.note path c reason, ?_⟩
  intro hb
  rw [Object.note]
  split
  · exact hb
  · exact hb

theorem treated_mark {base : Bytes} (hbase : Native base) (o : Object) (c : Classification) (reason : Bytes) :
    Treated o (o.mark base c reason) :=
  ⟨rfl, fun _ hp h => h.mark (fun path hpath => covers_native hbase (hp path hpath)) c reason, fun hb => hb⟩

theorem treated_consume {path : Bytes} (hpath : Native path) (o : Object) (reason : Bytes) :
    Treated o (o.markConsumedValue path reason) := by
  refine ⟨rfl, ?_, fun hb => hb⟩
  intro p hp h
  apply h.markConsumedValue
  intro place hplace heq
  obtain ⟨family, hmem, hfamily⟩ := hpath
  rw [← heq] at hfamily
  exact (hp place hplace).not_family hmem hfamily

theorem treated_bind {path : Bytes} (hpath : Native path) (o : Object) : Treated o (o.bind path) := by
  refine ⟨rfl, fun _ _ h => h.bind path, ?_⟩
  intro hb place hplace
  rcases List.mem_cons.mp hplace with rfl | hold
  · obtain ⟨family, hmem, hfamily⟩ := hpath
    exact ⟨family, hmem, by rwa [toLower_idem]⟩
  · exact hb place hold

/-- Operations that each treat the object treat it together. -/
theorem treated_foldl {α : Type} {f : Object → α → Object} {l : List α} (hstep : ∀ o, ∀ a ∈ l, Treated o (f o a))
    (o : Object) : Treated o (l.foldl f o) := by
  induction l generalizing o with
  | nil => exact Treated.refl o
  | cons a l ih =>
    refine (hstep o a List.mem_cons_self).trans (ih ?_ (f o a))
    intro o b hb
    exact hstep o b (List.mem_cons_of_mem a hb)

theorem treated_checkMiddlewareShape (o : Object) : Treated o (checkMiddlewareShape o) := by
  rw [checkMiddlewareShape]
  split
  · exact treated_note o _ _ _
  · exact Treated.refl o

theorem native_of_difference {family : Bytes} {out : Classification × Bytes} (h : difference family = some out) :
    family ∈ nativeFamilies := by
  have hsub : ∀ family ∈ [lit "stripprefix", lit "addprefix", lit "replacepath", lit "replacepathregex"] ++
      [lit "basicauth", lit "forwardauth", lit "digestauth"], family ∈ nativeFamilies := by decide
  rw [difference] at h
  split at h
  · rename_i heq; rw [heq]; decide
  · split at h
    · rename_i heq; rw [heq]; decide
    · split at h
      · rename_i hmem
        exact hsub _ (List.mem_append_left _ hmem)
      · split at h
        · rename_i heq; rw [heq]; decide
        · split at h
          · rename_i hmem
            exact hsub _ (List.mem_append_right _ hmem)
          · cases h

theorem cut_fst_le (s : Bytes) (c : UInt8) : (cut s c).1 <+: s := by
  rw [cut]
  cases hsplit : splitAtByte c s with
  | none => exact List.prefix_refl s
  | some parts =>
    obtain ⟨-, rfl⟩ := splitAtByte_eq_some_iff.mp hsplit
    exact List.prefix_append _ _

theorem treated_classifyDifference (o : Object) (f : Field) : Treated o (classifyDifference o f) := by
  rw [classifyDifference]
  split
  · rename_i c reason hdiff
    exact treated_mark ⟨_, native_of_difference hdiff, cut_fst_le _ _⟩ o c reason
  · exact Treated.refl o

theorem treated_classifyMiddlewareDifferences (o : Object) : Treated o (classifyMiddlewareDifferences o) :=
  treated_foldl (fun o f _ => treated_classifyDifference o f) o

theorem treated_op {t : Translator} {op : Op M} (h : op.Local t.families) (s : Object × List M) :
    Treated s.1 (op.apply s).1 := by
  cases op with
  | mark path c reason => exact treated_mark (Within.native h) s.1 c reason
  | consume path reason => exact treated_consume (Within.native h) s.1 reason
  | note path c reason => exact treated_note s.1 path c reason
  | bind path => exact treated_bind (Within.native h) s.1
  | append value => exact Treated.refl s.1

variable (T : Translators M)

theorem treated_ops {t : Translator} {ops : List (Op M)} (hops : ∀ op ∈ ops, op.Local t.families)
    (s : Object × List M) : Treated s.1 (ops.foldl Op.apply s).1 := by
  induction ops generalizing s with
  | nil => exact Treated.refl s.1
  | cons op ops ih =>
    refine (treated_op (hops op List.mem_cons_self) s).trans (ih ?_ (op.apply s))
    intro op' hop'
    exact hops op' (List.mem_cons_of_mem op hop')

theorem treated_translate (s : Object × List M) (t : Translator) : Treated s.1 (T.translate s t).1 := by
  rw [Translators.translate]
  split
  · exact treated_ops (T.stays t s.1 s.2) s
  · exact Treated.refl s.1

theorem treated_translateAll (o : Object) : Treated o (T.translateAll o).1 := by
  have hrun : ∀ (ts : List Translator) (s : Object × List M), Treated s.1 (ts.foldl T.translate s).1 := by
    intro ts
    induction ts with
    | nil => exact fun s => Treated.refl s.1
    | cons t ts ih => exact fun s => (treated_translate T s t).trans (ih (T.translate s t))
  exact ((treated_checkMiddlewareShape o).trans (treated_classifyMiddlewareDifferences _)).trans (hrun translators (_, []))

end Treated

/-! ### Pure chains -/

/-- A middleware whose source defines the family `chain` and nothing else. -/
def Object.PureChain (o : Object) : Prop :=
  o.data ≠ [] ∧ ∀ e ∈ o.data, toLower (cut e.1 (ch '.')).1 = lit "chain"

/-- Every finding of the object is at an alien path. -/
def Object.Foreign (o : Object) : Prop := ∀ f ∈ o.fields, Alien f.path

section Pure

variable {o : Object}

theorem Object.PureChain.of_source {o' : Object} (h : o'.source = o.source) (hpure : o.PureChain) : o'.PureChain := by
  rw [Object.PureChain, Object.data_of_source h]
  exact hpure

theorem Object.Foreign.note (h : o.Foreign) {path : Bytes} (hpath : Alien path) (c : Classification) (reason : Bytes) :
    (o.note path c reason).Foreign := by
  rw [Object.note]
  split
  · exact h
  · intro f hf
    rcases List.mem_append.mp hf with hf | hf
    · exact h f hf
    · obtain rfl := List.mem_singleton.mp hf
      exact hpath

theorem Object.Foreign.mark (h : o.Foreign) (base : Bytes) (c : Classification) (reason : Bytes) :
    (o.mark base c reason).Foreign := by
  intro f hf
  obtain ⟨f', hf', rfl⟩ := List.mem_map.mp hf
  split
  · exact h f' hf'
  · exact h f' hf'

theorem Object.Foreign.classify (h : o.Foreign) : (classifyMiddlewareDifferences (checkMiddlewareShape o)).Foreign := by
  have hshape : (checkMiddlewareShape o).Foreign := by
    rw [checkMiddlewareShape]
    split
    · exact h.note (NotePath.alien (by decide)) _ _
    · exact h
  have hfold : ∀ (fs : List Field) (o : Object), o.Foreign → (fs.foldl classifyDifference o).Foreign := by
    intro fs
    induction fs with
    | nil => exact fun o ho => ho
    | cons f fs ih =>
      intro o ho
      apply ih
      rw [classifyDifference]
      split
      · exact ho.mark _ _ _
      · exact ho
  exact hfold _ _ hshape

theorem lookup_eq_none_of_pure (hpure : o.PureChain) {key : Bytes}
    (hkey : toLower (cut key (ch '.')).1 ≠ lit "chain") : o.data.lookup key = none := by
  cases hlookup : o.data.lookup key with
  | none => rfl
  | some v => exact absurd (hpure.2 _ (mem_of_lookup hlookup)) hkey

theorem not_mem_of_splitAtByte {c : UInt8} {s : Bytes} (h : splitAtByte c s = none) : c ∉ s := by
  intro hmem
  obtain ⟨before, after, rfl, hnot⟩ := List.eq_append_cons_of_mem hmem
  rw [splitAtByte_eq_some_iff.mpr ⟨hnot, rfl⟩] at h
  cases h

/-- The first part of a split is what stands before the first separator. -/
theorem split_eq_cut (c : UInt8) (s : Bytes) : c ∉ (cut s c).1 ∧ ∃ rest, split c s = (cut s c).1 :: rest := by
  rw [cut]
  cases hsplit : splitAtByte c s with
  | none =>
    have hnot := not_mem_of_splitAtByte hsplit
    exact ⟨hnot, [], split_of_not_mem hnot⟩
  | some parts =>
    obtain ⟨hnot, rfl⟩ := splitAtByte_eq_some_iff.mp hsplit
    exact ⟨hnot, split c parts.2, by rw [split_append, split_of_not_mem hnot]; rfl⟩

theorem cut_of_not_mem {c : UInt8} {s : Bytes} (h : c ∉ s) : (cut s c).1 = s := by
  obtain ⟨-, rest, hsplit⟩ := split_eq_cut c s
  rw [split_of_not_mem h] at hsplit
  exact (List.cons.inj hsplit).1.symm

/-- A pure chain has no value of another family. -/
theorem value_eq_null_of_pure (hpure : o.PureChain) {path : Bytes}
    (hpath : toLower (cut path (ch '.')).1 ≠ lit "chain")
    (hlower : toLower (cut (toLower path) (ch '.')).1 ≠ lit "chain") : o.value path = .null := by
  rw [Object.value]
  split
  · rw [entryAt, lookup_eq_none_of_pure hpure hlower]
    rfl
  · obtain ⟨hnot, rest, hsplit⟩ := split_eq_cut (ch '.') path
    have hfirst : entryAt o.data (cut path (ch '.')).1 = .null := by
      rw [entryAt, lookup_eq_none_of_pure hpure (by rwa [cut_of_not_mem hnot])]
      rfl
    have hnull : ∀ keys : List Bytes, keys.foldl (fun v key => entryAt v.asMap key) Value.null = .null := by
      intro keys
      induction keys with
      | nil => rfl
      | cons key keys ih => exact ih
    rw [hsplit, List.foldl_cons]
    show rest.foldl _ (entryAt o.data (cut path (ch '.')).1) = .null
    rw [hfirst, hnull]

theorem defines_eq_false (hpure : o.PureChain) (hforeign : o.Foreign) {t : Translator} {family : Bytes}
    (hfamily : family ∈ t.families) : o.defines family = false := by
  have hname : ∀ family ∈ t.families, toLower (cut family (ch '.')).1 ≠ lit "chain" ∧
      toLower (cut (toLower family) (ch '.')).1 ≠ lit "chain" := by
    cases t <;> decide
  rw [Object.defines, value_eq_null_of_pure hpure (hname family hfamily).1 (hname family hfamily).2]
  show (false || o.hasFieldPrefix (family ++ lit ".")) = false
  rw [Bool.false_or, Object.hasFieldPrefix, List.any_eq_false]
  intro f hf hstart
  rw [hasPrefix_iff, toLower_append] at hstart
  exact (hforeign f hf).not_family (native_of_translator t hfamily) ((List.prefix_append _ _).trans hstart)

/-- The translators leave the chain of a pure chain middleware empty. -/
theorem translateAll_of_pure (T : Translators M) (hpure : o.PureChain) (hforeign : o.Foreign) :
    (T.translateAll o).2 = [] := by
  have hshape := (treated_checkMiddlewareShape o).trans (treated_classifyMiddlewareDifferences _)
  have hpure' := Object.PureChain.of_source hshape.source hpure
  have hforeign' := hforeign.classify
  rw [Translators.translateAll]
  generalize classifyMiddlewareDifferences (checkMiddlewareShape o) = o' at hpure' hforeign'
  have hstep : ∀ t, T.translate (o', []) t = (o', []) := by
    intro t
    rw [Translators.translate, if_neg]
    rw [List.any_eq_true]
    rintro ⟨family, hfamily, hdefines⟩
    rw [defines_eq_false hpure' hforeign' hfamily] at hdefines
    exact Bool.false_ne_true hdefines
  have hrun : ∀ ts : List Translator, ts.foldl T.translate (o', []) = (o', []) := by
    intro ts
    induction ts with
    | nil => rfl
    | cons t ts ih => rw [List.foldl_cons, hstep t, ih]
  rw [hrun]

end Pure

end Statute.Migrate
