import Statute.Migrate.Chain

/-!
# Indexing the middlewares

`generate` first adds an object for every middleware of the sources and indexes the objects by identity.
What the search for chains starts from is collected in `Indexed`: chain lists are untranslated, a shared
identity is noted on every object that has it, and the findings of a pure chain are all at alien paths.
-/

namespace Statute.Migrate

open Statute.Base

/-- What indexing establishes, and the search starts from. -/
structure Indexed {n : ℕ} (objects : Fin n → Object) : Prop where
  /-- no field is bound yet -/
  bindings : ∀ i, (objects i).bindingFields = []
  /-- a chain list is untranslated -/
  pending : ∀ i, ((objects i).value chainPath).isNull = false → (objects i).Held Alien
  foreign : ∀ i, (objects i).PureChain → (objects i).Foreign
  /-- a shared identity is noted on every object that has it -/
  clash : ∀ i j, i ≠ j → (objects i).id = (objects j).id → (objects i).Held NotePath

/-! ### What the search starts from -/

section Start

variable (quote : Bytes → Bytes)

/-- The object of a source without findings. -/
def bareObject (s : Source) : Object where
  provider := s.provider
  name := if literal s.name then s.name else lit "<unresolved-name>"
  data := s.value.asMap

/-- The object before the notes of `addObject`. -/
def flattened (s : Source) : Object := flatten quote (bareObject s) [] 0 s.value

theorem added_ifNote (b : Bool) (o : Object) {path : Bytes} {c : Classification} (hc : blocked c = true)
    (hpath : NotePath path) (reason : Bytes) : Object.Added NotePath o (if b then o.note path c reason else o) := by
  cases b with
  | false => exact Object.Added.refl _ _
  | true => exact Object.added_note hc hpath reason

variable (s : Source)

theorem added_addObject : Object.Added NotePath (flattened quote s) (addObject quote s) := by
  have hname : Object.Added NotePath (flattened quote s) (if literal s.name then flattened quote s else
      (flattened quote s).note (lit "$name") .manual
        (lit "unresolved object name; interpolation is not evaluated")) := by
    cases literal s.name with
    | false => exact Object.added_note rfl (by decide) _
    | true => exact Object.Added.refl _ _
  exact hname.trans (added_ifNote s.invalidLabels _ rfl (by decide) _)

theorem flattened_source : (flattened quote s).source = (bareObject s).source :=
  (flatten_added quote _ [] 0 (fun _ => rfl) s.value).source

theorem flattened_data : (flattened quote s).data = s.value.asMap :=
  Object.data_of_source (flattened_source quote s)

/-- The top level of a middleware whose source is a map with entries. -/
theorem flattened_eq_flattenMap {s : Source} (h : s.value.asMap ≠ []) :
    flattened quote s = flattenMap quote (bareObject s) [] 0 s.value.asMap := by
  rw [flattened]
  generalize bareObject s = o
  cases hvalue : s.value with
  | map entries =>
    rw [hvalue] at h
    rw [flatten, if_neg (by omega), if_neg]
    · rfl
    · rw [List.isEmpty_iff]
      exact h
  | _ =>
    rw [hvalue] at h
    exact absurd rfl h

/-- A key of an alien path stands at an alien path. -/
theorem alien_entryPath {key : Bytes} (h : Alien key) (provider : Provider) :
    Alien (entryPath quote provider 0 [] key) := by
  rw [entryPath]
  split
  · exact h
  · rw [fieldPath]
    split
    · exact ⟨lit "[", by decide, by decide⟩
    · split
      · refine ⟨lit "[", by decide, ?_⟩
        rw [List.append_assoc]
        exact toLower_mono (List.prefix_append (lit "[") _)
      · rw [if_neg (fun hne => hne rfl)]
        exact h

/-- An entry of the top level leaves a blocking finding. -/
theorem flattened_held {s : Source} (key : Bytes) (h : (entryAt s.value.asMap key).isNull = false)
    (halien : Alien key) : (flattened quote s).Held Alien := by
  cases hlookup : s.value.asMap.lookup key with
  | none =>
    rw [entryAt, hlookup] at h
    cases h
  | some v =>
    have hmem := mem_of_lookup hlookup
    rw [flattened_eq_flattenMap quote (List.ne_nil_of_mem hmem)]
    exact (flattenMap_held quote hmem _ [] 0).mono fun path hpath => (alien_entryPath quote halien _).mono hpath

theorem flattened_pending (h : ((flattened quote s).value chainPath).isNull = false) :
    (flattened quote s).Held Alien := by
  rw [Object.value_of_source (flattened_source quote s), Object.value] at h
  cases hprovider : (bareObject s).provider with
  | docker =>
    rw [hprovider] at h
    exact flattened_held quote (toLower chainPath) h (alien_chainPath (by decide))
  | file =>
    have hsplit : split (ch '.') chainPath = [lit "chain", lit "middlewares"] := by decide
    rw [hprovider, hsplit] at h
    apply flattened_held quote (lit "chain") _ ⟨lit "chain", by decide, by decide⟩
    have hread : (entryAt (entryAt s.value.asMap (lit "chain")).asMap (lit "middlewares")).isNull = false := h
    cases hchain : entryAt s.value.asMap (lit "chain") with
    | null =>
      rw [hchain] at hread
      cases hread
    | _ => rfl

theorem flattened_foreign (h : (flattened quote s).PureChain) : (flattened quote s).Foreign := by
  rw [Object.PureChain, flattened_data] at h
  obtain ⟨hne, hfamily⟩ := h
  rw [flattened_eq_flattenMap quote hne]
  obtain ⟨extra, heq, hextra⟩ := (flattenMap_added quote (bareObject s) [] 0 s.value.asMap).fields
  intro f hf
  rw [heq, show (bareObject s).fields = [] from rfl, List.nil_append] at hf
  obtain ⟨-, e, he, hpath⟩ := hextra f hf
  apply Alien.mono _ hpath
  apply alien_entryPath
  refine ⟨lit "chain", by decide, ?_⟩
  rw [← hfamily e he]
  exact toLower_mono (cut_fst_le _ _)

end Start

/-! ### Indexing -/

section Index

variable {n : ℕ} {objects objects' : Fin n → Object}

theorem objectAt_of_source (h : ∀ j, (objects' j).source = (objects j).source) (id : Bytes) :
    objectAt objects' id = objectAt objects id := by
  rw [objectAt, objectAt]
  congr 1
  funext j
  rw [Object.id_of_source (h j)]

theorem added_clash (o : Object) : Object.Added NotePath o
    (o.note (lit "$identity") .manual (lit "duplicate provider-qualified identity")) :=
  Object.added_note rfl (by decide) _

theorem held_clash (o : Object) :
    (o.note (lit "$identity") .manual (lit "duplicate provider-qualified identity")).Held NotePath :=
  Object.held_note rfl (by decide) _

/-- One round of indexing adds notes, and notes a shared identity on both objects. -/
theorem indexObject_spec (objects : Fin n → Object) (i : Fin n) :
    (∀ j, Object.Added NotePath (objects j) (indexObject objects i j)) ∧
    ∀ old, objectAt objects (objects i).id = some old → old ≠ i →
      (indexObject objects i i).Held NotePath ∧ (indexObject objects i old).Held NotePath := by
  rw [indexObject]
  cases hold : objectAt objects (objects i).id with
  | none => exact ⟨fun j => Object.Added.refl _ _, fun old h => by cases h⟩
  | some old =>
    by_cases hsame : old = i
    · simp only [if_pos hsame]
      refine ⟨fun j => Object.Added.refl _ _, ?_⟩
      intro old' hold' hne
      cases hold'
      exact absurd hsame hne
    · simp only [if_neg hsame]
      refine ⟨?_, ?_⟩
      · intro j
        by_cases hj : j = i
        · subst hj
          rw [Function.update_self, Function.update_of_ne (Ne.symm hsame)]
          exact added_clash _
        · rw [Function.update_of_ne hj]
          by_cases hj' : j = old
          · subst hj'
            rw [Function.update_self]
            exact added_clash _
          · rw [Function.update_of_ne hj']
            exact Object.Added.refl _ _
      · intro old' hold' _
        cases hold'
        rw [Function.update_self, Function.update_of_ne hsame, Function.update_self]
        exact ⟨held_clash _, held_clash _⟩

/-- The rounds of indexing together. -/
theorem indexObjects_spec (l : List (Fin n)) (objects : Fin n → Object) :
    (∀ j, Object.Added NotePath (objects j) (l.foldl indexObject objects j)) ∧
    ∀ i ∈ l, ∀ old, objectAt objects (objects i).id = some old → old ≠ i →
      (l.foldl indexObject objects i).Held NotePath ∧ (l.foldl indexObject objects old).Held NotePath := by
  induction l generalizing objects with
  | nil => exact ⟨fun j => Object.Added.refl _ _, fun i hi => absurd hi List.not_mem_nil⟩
  | cons a l ih =>
    obtain ⟨hadd, hnoted⟩ := indexObject_spec objects a
    obtain ⟨hadd', hnoted'⟩ := ih (indexObject objects a)
    refine ⟨fun j => (hadd j).trans (hadd' j), ?_⟩
    intro i hi old hold hne
    rcases List.mem_cons.mp hi with rfl | hi
    · obtain ⟨hself, hother⟩ := hnoted old hold hne
      exact ⟨hself.added (hadd' i), hother.added (hadd' old)⟩
    · apply hnoted' i hi old _ hne
      rw [objectAt_of_source fun j => (hadd j).source, Object.id_of_source (hadd i).source]
      exact hold

theorem exists_objectAt (objects : Fin n → Object) (i : Fin n) : ∃ old, objectAt objects (objects i).id = some old := by
  rw [← Option.isSome_iff_exists, objectAt, List.find?_isSome]
  exact ⟨i, List.mem_finRange i, beq_self_eq_true _⟩

def indexedObjects (quote : Bytes → Bytes) (sources : List Source) : Fin sources.length → Object :=
  indexObjects fun i => addObject quote (sources.get i)

theorem indexed (quote : Bytes → Bytes) (sources : List Source) : Indexed (indexedObjects quote sources) := by
  obtain ⟨hadd, hnoted⟩ := indexObjects_spec (List.finRange sources.length)
    (fun i => addObject quote (sources.get i))
  have hfrom : ∀ i, Object.Added NotePath (flattened quote (sources.get i)) (indexedObjects quote sources i) :=
    fun i => (added_addObject quote _).trans (hadd i)
  refine ⟨?_, ?_, ?_, ?_⟩
  · intro i
    rw [(hfrom i).bindings, flattened, (flatten_added quote _ [] 0 (fun _ => rfl) _).bindings]
    rfl
  · intro i hnull
    rw [Object.value_of_source (hfrom i).source] at hnull
    exact (flattened_pending quote _ hnull).added (hfrom i)
  · intro i hpure f hf
    obtain ⟨extra, heq, hextra⟩ := (hfrom i).fields
    rw [heq] at hf
    rcases List.mem_append.mp hf with hf | hf
    · exact flattened_foreign quote _ (Object.PureChain.of_source (hfrom i).source.symm hpure) f hf
    · exact (hextra f hf).2.alien
  · intro i j hij hid
    have hid' : (addObject quote (sources.get i)).id = (addObject quote (sources.get j)).id := by
      rw [← Object.id_of_source (hadd i).source, ← Object.id_of_source (hadd j).source]
      exact hid
    obtain ⟨old, hold⟩ := exists_objectAt (fun i => addObject quote (sources.get i)) i
    by_cases hfirst : old = i
    · subst hfirst
      -- the first object of the identity is noted when a later one is indexed
      exact (hnoted j (List.mem_finRange j) old (hid' ▸ hold) hij).2
    · exact (hnoted i (List.mem_finRange i) old hold hfirst).1

end Index

end Statute.Migrate
