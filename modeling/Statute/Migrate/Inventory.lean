import Mathlib.Data.List.Infix
import Statute.Base.Bytes
import Statute.Base.TextMap

/-!
# The audited objects of a migration

`internal/migrate` turns the objects of a Traefik configuration into Statute code and keeps, for every
source field, a finding that says what became of it.  A finding that is `manual` or `unsupported` blocks
the object it belongs to, and that is the only record a failed translation leaves.  This module models the
middleware objects with their findings (`model.go`, `input.go`): how a source value is flattened into
findings, how findings are marked and added, and when an object is ready.

* `Held p` — the object has a blocking finding at a path that satisfies `p`; marking keeps it unless the
  mark covers such a path, adding findings always does.
* `flatten_held` — flattening a value leaves a blocking finding at or below its path.
-/

namespace Statute.Migrate

open Statute.Base

/-! ### Values -/

/-- A decoded YAML, TOML or label value.  The entries of a map stand in the order of `keys`. -/
inductive Value where
  | null
  /-- a boolean or a number, as `fmt.Sprint` prints it -/
  | scalar (text : Bytes)
  | str (s : Bytes)
  | list (items : List Value)
  | map (entries : List (Bytes × Value))

/-- The comparison with `nil`. -/
def Value.isNull : Value → Bool
  | .null => true
  | _ => false

def Value.asMap : Value → List (Bytes × Value)
  | .map entries => entries
  | _ => []

/-- Indexing a map, which gives `nil` for a key it lacks. -/
def entryAt (entries : List (Bytes × Value)) (key : Bytes) : Value := (entries.lookup key).getD .null

/-- `strings.Contains`. -/
def containsText (sub : Bytes) : Bytes → Bool
  | [] => sub.isEmpty
  | c :: s => hasPrefix (c :: s) sub || containsText sub s

def literal (s : Bytes) : Bool :=
  !containsAny s (lit "$\r\n\x00") && !containsText (lit "\x7b\x7b") s

/-! ### Objects and findings -/

/-- The providers a middleware can come from. -/
inductive Provider where
  | file
  | docker
deriving DecidableEq

def Provider.text : Provider → Bytes
  | .file => lit "file"
  | .docker => lit "docker"

/-- Docker label paths are compared in lower case, the paths of a file as they are. -/
def Provider.fold : Provider → Bytes → Bytes
  | .file => id
  | .docker => toLower

inductive Classification where
  | exact
  | translated
  | manual
  | unsupported
  | outOfScope
deriving DecidableEq

def blocked (c : Classification) : Bool := c == .manual || c == .unsupported

structure Field where
  path : Bytes
  classification : Classification
  reason : Bytes
deriving DecidableEq

/-- An `Object` of the kind `middlewares`. -/
structure Object where
  provider : Provider
  name : Bytes
  data : List (Bytes × Value)
  fields : List Field := []
  bindingFields : List Bytes := []

namespace Object

variable (o : Object)

/-- The name of the object with its provider, under which chains are registered; `identity` puts the kind
in front of it. -/
def id : Bytes := o.name ++ lit "@" ++ o.provider.text

def value (path : Bytes) : Value :=
  match o.provider with
  | .docker => entryAt o.data (toLower path)
  | .file => (split (ch '.') path).foldl (fun v key => entryAt v.asMap key) (.map o.data)

/-- The paths a mark of `base` reaches. -/
def covers (provider : Provider) (base path : Bytes) : Bool :=
  base.isEmpty || provider.fold path == provider.fold base ||
    hasPrefix (provider.fold path) (provider.fold base ++ lit ".") ||
    hasPrefix (provider.fold path) (provider.fold base ++ lit "[")

def mark (base : Bytes) (c : Classification) (reason : Bytes) : Object :=
  { o with fields := o.fields.map fun f =>
      if covers o.provider base f.path then { f with classification := c, reason := reason } else f }

def markConsumedValue (path reason : Bytes) : Object :=
  { o with fields := o.fields.map fun f =>
      if f.path == path || o.provider == .docker && equalFold f.path path then
        { f with classification := .translated, reason := reason }
      else f }

def note (path : Bytes) (c : Classification) (reason : Bytes) : Object :=
  if ⟨path, c, reason⟩ ∈ o.fields then o else { o with fields := o.fields ++ [⟨path, c, reason⟩] }

/-- The entry that `sensitiveValue` makes in `bindingFields`. -/
def bind (path : Bytes) : Object := { o with bindingFields := toLower path :: o.bindingFields }

def ready : Bool := o.fields.all fun f => !blocked f.classification

def readyWithBindings : Bool :=
  o.fields.all fun f => !(blocked f.classification &&
    (f.classification != .manual || !o.bindingFields.contains (toLower f.path)))

def hasFieldPrefix (start : Bytes) : Bool := o.fields.any fun f => hasPrefix (toLower f.path) (toLower start)

end Object

/-! ### Flattening -/

section Flatten

/- `strconv.Quote`, whatever it prints -/
variable (quote : Bytes → Bytes)

def fieldPath (parent key : Bytes) : Bytes :=
  if !literal key then parent ++ lit "[unresolved-key]"
  else if containsAny key (lit ".[]") then parent ++ lit "[" ++ quote key ++ lit "]"
  else if parent ≠ [] then parent ++ lit "." ++ key
  else key

/-- The path of a map entry: at the top of a Docker object it is the label key itself. -/
def entryPath (provider : Provider) (depth : ℕ) (path key : Bytes) : Bytes :=
  if provider = .docker ∧ depth = 0 then key else fieldPath quote path key

/-- The finding of a value nothing translates. -/
def untranslated (o : Object) (path : Bytes) : Object :=
  { o with fields := o.fields ++ [⟨path, .manual, lit "no verified translation; value withheld"⟩] }

def nestingLimit (o : Object) (path : Bytes) : Object :=
  o.note path .unsupported (lit "nesting limit exceeded")

mutual

def flatten (o : Object) (path : Bytes) (depth : ℕ) : Value → Object
  | .map entries =>
    if 64 < depth then nestingLimit o path
    else if entries.isEmpty then untranslated o path
    else flattenMap o path depth entries
  | .list items =>
    if 64 < depth then nestingLimit o path
    else if items.isEmpty then untranslated o path
    else flattenList o path depth 0 items
  | .null => if 64 < depth then nestingLimit o path else untranslated o path
  | .scalar _ => if 64 < depth then nestingLimit o path else untranslated o path
  | .str _ => if 64 < depth then nestingLimit o path else untranslated o path

def flattenMap (o : Object) (path : Bytes) (depth : ℕ) : List (Bytes × Value) → Object
  | [] => o
  | (key, v) :: rest =>
    flattenMap (flatten o (entryPath quote o.provider depth path key) (depth + 1) v) path depth rest

/-- The loop of `flatten` over a list. -/
def flattenList (o : Object) (path : Bytes) (depth index : ℕ) : List Value → Object
  | [] => o
  | v :: rest =>
    flattenList (flatten o (path ++ lit "[" ++ decText index ++ lit "]") (depth + 1) v) path depth (index + 1) rest

end

/-- A middleware as it stands in a source: its provider, name and value, and whether the labels it comes
from are ambiguous or malformed. -/
structure Source where
  provider : Provider
  name : Bytes
  value : Value
  invalidLabels : Bool := false

/-- `addObject`, and the note `inventoryComposeService` adds for invalid labels. -/
def addObject (s : Source) : Object :=
  let name := if literal s.name then s.name else lit "<unresolved-name>"
  let o := flatten quote { provider := s.provider, name := name, data := s.value.asMap } [] 0 s.value
  let o := if literal s.name then o
    else o.note (lit "$name") .manual (lit "unresolved object name; interpolation is not evaluated")
  if s.invalidLabels then o.note (lit "$labels") .unsupported (lit "ambiguous or malformed Compose labels") else o

end Flatten

/-! ### What findings an operation adds -/

namespace Object

def source (o : Object) : Provider × Bytes × List (Bytes × Value) := (o.provider, o.name, o.data)

/-- The object has a blocking finding at a path that satisfies `p`. -/
def Held (p : Bytes → Prop) (o : Object) : Prop :=
  ∃ f ∈ o.fields, blocked f.classification = true ∧ p f.path

/-- **Added.**  `o'` is `o` with further blocking findings at paths that satisfy `p`. -/
structure Added (p : Bytes → Prop) (o o' : Object) : Prop where
  source : o'.source = o.source
  bindings : o'.bindingFields = o.bindingFields
  fields : ∃ extra, o'.fields = o.fields ++ extra ∧ ∀ f ∈ extra, blocked f.classification = true ∧ p f.path

variable {p q : Bytes → Prop} {o o' o'' : Object}

theorem provider_of_source (h : o'.source = o.source) : o'.provider = o.provider := congrArg Prod.fst h

theorem data_of_source (h : o'.source = o.source) : o'.data = o.data :=
  congrArg (fun s => s.2.2) h

theorem id_of_source (h : o'.source = o.source) : o'.id = o.id := by
  rw [id, id, provider_of_source h, show o'.name = o.name from congrArg (fun s => s.2.1) h]

theorem value_of_source (h : o'.source = o.source) (path : Bytes) : o'.value path = o.value path := by
  rw [value, value, provider_of_source h, data_of_source h]

theorem Added.refl (p : Bytes → Prop) (o : Object) : Added p o o :=
  ⟨rfl, rfl, [], (List.append_nil _).symm, fun _ h => absurd h List.not_mem_nil⟩

theorem Added.trans (h : Added p o o') (h' : Added p o' o'') : Added p o o'' := by
  obtain ⟨extra, heq, hextra⟩ := h.fields
  obtain ⟨extra', heq', hextra'⟩ := h'.fields
  refine ⟨h'.source.trans h.source, h'.bindings.trans h.bindings, extra ++ extra', ?_, ?_⟩
  · rw [heq', heq, List.append_assoc]
  · intro f hf
    rcases List.mem_append.mp hf with hf | hf
    · exact hextra f hf
    · exact hextra' f hf

theorem Added.mono (hpq : ∀ path, p path → q path) (h : Added p o o') : Added q o o' := by
  obtain ⟨extra, heq, hextra⟩ := h.fields
  exact ⟨h.source, h.bindings, extra, heq, fun f hf => ⟨(hextra f hf).1, hpq _ (hextra f hf).2⟩⟩

theorem added_note {path : Bytes} {c : Classification} (hc : blocked c = true) (hp : p path) (reason : Bytes) :
    Added p o (o.note path c reason) := by
  rw [note]
  split
  · exact Added.refl p o
  · refine ⟨rfl, rfl, [⟨path, c, reason⟩], rfl, ?_⟩
    intro f hf
    obtain rfl := List.mem_singleton.mp hf
    exact ⟨hc, hp⟩

@[simp] theorem note_source (path : Bytes) (c : Classification) (reason : Bytes) :
    (o.note path c reason).source = o.source := by
  rw [note]
  split <;> rfl

theorem Held.mono (hpq : ∀ path, p path → q path) (h : o.Held p) : o.Held q := by
  obtain ⟨f, hf, hblocked, hp⟩ := h
  exact ⟨f, hf, hblocked, hpq _ hp⟩

theorem Held.added (h : o.Held q) (hadd : Added p o o') : o'.Held q := by
  obtain ⟨f, hf, hheld⟩ := h
  obtain ⟨extra, heq, -⟩ := hadd.fields
  refine ⟨f, ?_, hheld⟩
  rw [heq]
  exact List.mem_append_left _ hf

/-- A note of any class keeps what blocks. -/
theorem Held.note (h : o.Held p) (path : Bytes) (c : Classification) (reason : Bytes) :
    (o.note path c reason).Held p := by
  obtain ⟨f, hf, hheld⟩ := h
  rw [Object.note]
  split
  · exact ⟨f, hf, hheld⟩
  · exact ⟨f, List.mem_append_left _ hf, hheld⟩

theorem held_note {path : Bytes} {c : Classification} (hc : blocked c = true) (hp : p path) (reason : Bytes) :
    (o.note path c reason).Held p := by
  refine ⟨⟨path, c, reason⟩, ?_, hc, hp⟩
  rw [Object.note]
  split
  · assumption
  · exact List.mem_append_right _ (List.mem_singleton_self _)

/-- A mark keeps a blocking finding it does not cover. -/
theorem Held.mark {base : Bytes} (h : o.Held p) (hcovers : ∀ path, p path → covers o.provider base path = false)
    (c : Classification) (reason : Bytes) : (o.mark base c reason).Held p := by
  obtain ⟨f, hf, hblocked, hp⟩ := h
  refine ⟨f, List.mem_map.mpr ⟨f, hf, ?_⟩, hblocked, hp⟩
  rw [hcovers f.path hp]
  rfl

theorem Held.markConsumedValue {path : Bytes} (h : o.Held p) (hfold : ∀ place, p place → toLower place ≠ toLower path)
    (reason : Bytes) : (o.markConsumedValue path reason).Held p := by
  obtain ⟨f, hf, hblocked, hp⟩ := h
  refine ⟨f, List.mem_map.mpr ⟨f, hf, ?_⟩, hblocked, hp⟩
  have hne : f.path ≠ path := fun heq => hfold _ hp (congrArg toLower heq)
  have hfalse : equalFold f.path path = false := beq_false_of_ne (hfold _ hp)
  rw [hfalse, Bool.and_false, Bool.or_false, beq_false_of_ne hne]
  rfl

theorem Held.bind (h : o.Held p) (path : Bytes) : (o.bind path).Held p := h

/-- An object with a blocking finding is not ready, unless the finding is one of its bindings. -/
theorem Held.not_ready (h : o.Held p) (hbind : ∀ path, p path → toLower path ∉ o.bindingFields) :
    o.readyWithBindings = false := by
  obtain ⟨f, hf, hblocked, hp⟩ := h
  rw [readyWithBindings, List.all_eq_false]
  refine ⟨f, hf, ?_⟩
  have hnot : o.bindingFields.contains (toLower f.path) = false := by
    rw [List.contains_eq_mem]
    exact decide_eq_false (hbind _ hp)
  rw [hblocked, hnot]
  simp

end Object

/-! ### Flattening leaves blocking findings -/

section Flattened

open Object

variable (quote : Bytes → Bytes)

theorem added_untranslated (o : Object) (path : Bytes) : Added (path <+: ·) o (untranslated o path) := by
  refine ⟨rfl, rfl, _, rfl, ?_⟩
  intro f hf
  obtain rfl := List.mem_singleton.mp hf
  exact ⟨rfl, List.prefix_refl path⟩

theorem added_nestingLimit (o : Object) (path : Bytes) : Added (path <+: ·) o (nestingLimit o path) :=
  added_note rfl (List.prefix_refl path) _

theorem held_untranslated (o : Object) (path : Bytes) : (untranslated o path).Held (path <+: ·) :=
  ⟨_, List.mem_append_right _ (List.mem_singleton_self _), rfl, List.prefix_refl path⟩

theorem held_nestingLimit (o : Object) (path : Bytes) : (nestingLimit o path).Held (path <+: ·) :=
  held_note rfl (List.prefix_refl path) _

theorem path_le_fieldPath (path key : Bytes) : path <+: fieldPath quote path key := by
  rw [fieldPath]
  split
  · exact List.prefix_append _ _
  · split
    · rw [List.append_assoc, List.append_assoc]
      exact List.prefix_append _ _
    · split
      · rw [List.append_assoc]
        exact List.prefix_append _ _
      · rename_i hpath
        rw [not_not.mp hpath]
        exact List.nil_prefix

theorem path_le_entryPath {provider : Provider} {depth : ℕ} {path : Bytes} (h : depth = 0 → path = []) (key : Bytes) :
    path <+: entryPath quote provider depth path key := by
  rw [entryPath]
  split
  · rename_i htop
    rw [h htop.2]
    exact List.nil_prefix
  · exact path_le_fieldPath quote path key

mutual

theorem flatten_added (o : Object) (path : Bytes) (depth : ℕ) (h : depth = 0 → path = []) :
    (v : Value) → Added (path <+: ·) o (flatten quote o path depth v)
  | .map entries => by
    rw [flatten]
    split
    · exact added_nestingLimit o path
    · split
      · exact added_untranslated o path
      · apply (flattenMap_added o path depth entries).mono
        rintro q ⟨e, -, hq⟩
        exact (path_le_entryPath quote h e.1).trans hq
  | .list items => by
    rw [flatten]
    split
    · exact added_nestingLimit o path
    · split
      · exact added_untranslated o path
      · exact flattenList_added o path depth 0 items
  | .null | .scalar _ | .str _ => by
    rw [flatten]
    split
    · exact added_nestingLimit o path
    · exact added_untranslated o path

theorem flattenMap_added (o : Object) (path : Bytes) (depth : ℕ) :
    (entries : List (Bytes × Value)) →
      Added (fun q => ∃ e ∈ entries, entryPath quote o.provider depth path e.1 <+: q) o
        (flattenMap quote o path depth entries)
  | [] => by
    rw [flattenMap]
    exact Added.refl _ o
  | (key, v) :: rest => by
    rw [flattenMap]
    have hhead := flatten_added o (entryPath quote o.provider depth path key) (depth + 1)
      (fun h => absurd h (Nat.succ_ne_zero depth)) v
    have htail := flattenMap_added (flatten quote o (entryPath quote o.provider depth path key) (depth + 1) v)
      path depth rest
    rw [provider_of_source hhead.source] at htail
    refine (hhead.mono ?_).trans (htail.mono ?_)
    · intro q hq
      exact ⟨(key, v), List.mem_cons_self, hq⟩
    · rintro q ⟨e, he, hq⟩
      exact ⟨e, List.mem_cons_of_mem _ he, hq⟩

theorem flattenList_added (o : Object) (path : Bytes) (depth index : ℕ) :
    (items : List Value) → Added (path <+: ·) o (flattenList quote o path depth index items)
  | [] => by
    rw [flattenList]
    exact Added.refl _ o
  | v :: rest => by
    rw [flattenList]
    have hhead := flatten_added o (path ++ lit "[" ++ decText index ++ lit "]") (depth + 1)
      (fun h => absurd h (Nat.succ_ne_zero depth)) v
    refine (hhead.mono ?_).trans (flattenList_added _ path depth (index + 1) rest)
    intro q hq
    rw [List.append_assoc, List.append_assoc] at hq
    exact (List.prefix_append _ _).trans hq

end

/-- **Nothing is flattened away.**  A flattened value leaves a blocking finding at or below its path. -/
theorem flatten_held (o : Object) (path : Bytes) (depth : ℕ) (h : depth = 0 → path = []) :
    (v : Value) → (flatten quote o path depth v).Held (path <+: ·)
  | .map [] | .list [] | .null | .scalar _ | .str _ => by
    rw [flatten]
    split
    · exact held_nestingLimit o path
    · exact held_untranslated o path
  | .map ((key, v) :: rest) => by
    rw [flatten, flattenMap]
    split
    · exact held_nestingLimit o path
    · have hhead := flatten_held o (entryPath quote o.provider depth path key) (depth + 1)
        (fun h => absurd h (Nat.succ_ne_zero depth)) v
      exact (hhead.mono fun q hq => (path_le_entryPath quote h key).trans hq).added
        (flattenMap_added quote _ path depth rest)
  | .list (v :: rest) => by
    rw [flatten, flattenList]
    split
    · exact held_nestingLimit o path
    · have hhead := flatten_held o (path ++ lit "[" ++ decText 0 ++ lit "]") (depth + 1)
        (fun h => absurd h (Nat.succ_ne_zero depth)) v
      refine (hhead.mono ?_).added (flattenList_added quote _ path depth 1 rest)
      intro q hq
      rw [List.append_assoc, List.append_assoc] at hq
      exact (List.prefix_append _ _).trans hq

/-- An entry of a map leaves a blocking finding at or below its path. -/
theorem flattenMap_held {entries : List (Bytes × Value)} {e : Bytes × Value} (he : e ∈ entries) (o : Object)
    (path : Bytes) (depth : ℕ) :
    (flattenMap quote o path depth entries).Held (entryPath quote o.provider depth path e.1 <+: ·) := by
  induction entries generalizing o with
  | nil => exact absurd he List.not_mem_nil
  | cons head rest ih =>
    obtain ⟨key, v⟩ := head
    rw [flattenMap]
    have hhead := flatten_added quote o (entryPath quote o.provider depth path key) (depth + 1)
      (fun h => absurd h (Nat.succ_ne_zero depth)) v
    rcases List.mem_cons.mp he with rfl | he
    · exact (flatten_held quote o _ (depth + 1) (fun h => absurd h (Nat.succ_ne_zero depth)) v).added
        (flattenMap_added quote _ path depth rest)
    · have := ih he (flatten quote o (entryPath quote o.provider depth path key) (depth + 1) v)
      rwa [provider_of_source hhead.source] at this

end Flattened

end Statute.Migrate
