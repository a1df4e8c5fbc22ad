import Statute.Base.Postorder
import Statute.Migrate.Indexing

/-!
# The search for middleware chains

The depth-first search of `generator.chain` over middlewares with arbitrary references: missing, repeated,
shared, cyclic or deeply nested.  Marks and a depth limit make it end, and a blocking finding on the way
back keeps everything above a failed reference unregistered.

* `Registered` — the table of chains as it grows: an entry refers to older entries only;
* `expandRefs_spec` — the loop over the references leaves a blocking finding or a registered chain for each;
* `chain_spec` — one call ends, keeps the invariant `Sound`, and leaves the middlewares being visited alone
  except for further blocking findings;
* `chain_migration` — a whole run ends, and what it registers is closed under references, free of cycles,
  and concatenates the chains it refers to.
-/

namespace Statute.Migrate

open Statute.Base

variable {M : Type}

/-! ### The invariant of the search -/

section Invariant

variable {n : ℕ}

/-- The values of a chain middleware are those of its references, in their order. -/
def Concatenates (table : List (Bytes × List M)) (o : Object) (values : List M) : Prop :=
  (∃ refs, o.chainList = some refs ∧ refs ≠ []) ∧
    values = (o.references.flatMap fun id => textGet table id []) ∧ values.length ≤ 256

/-- **Registered.**  The table of chains, newest first: an entry belongs to the one object of its identity,
refers to older entries only, and concatenates them if it is a pure chain. -/
inductive Registered (objects : Fin n → Object) : List (Bytes × List M) → Prop
  | nil : Registered objects []
  | cons {i : Fin n} {values : List M} {table : List (Bytes × List M)} : Registered objects table →
      (objects i).id ∉ table.map Prod.fst → (∀ j, (objects j).id = (objects i).id → j = i) →
      (∀ id ∈ (objects i).references, id ∈ table.map Prod.fst) →
      ((objects i).PureChain → Concatenates table (objects i) values) →
      Registered objects (((objects i).id, values) :: table)

/-- **Sound.**  The state of the search over `objects`. -/
structure Sound (objects : Fin n → Object) (g : Generator n M) : Prop where
  source : ∀ i, (g.objects i).source = (objects i).source
  fresh : ∀ i, (objects i).id ∉ g.attempted → g.objects i = objects i
  binds : ∀ i, (g.objects i).BindsNative
  clash : ∀ i j, i ≠ j → (objects i).id = (objects j).id → (g.objects i).Held NotePath
  attempted : ∀ id ∈ g.visiting, id ∈ g.attempted
  unregistered : ∀ id ∈ g.visiting, id ∉ g.chains.map Prod.fst
  registered : Registered objects g.chains

/-- **Advances.**  What a part of the search may change: the table grows, and the objects with an identity
in `kept` gain blocking notes at most. -/
structure Advances (objects : Fin n → Object) (kept : List Bytes) (g g' : Generator n M) : Prop where
  visiting : g'.visiting = g.visiting
  attempted : ∀ id ∈ g.attempted, id ∈ g'.attempted
  chains : g.chains <:+ g'.chains
  kept : ∀ i, (objects i).id ∈ kept → Object.Added NotePath (g.objects i) (g'.objects i)

variable {objects : Fin n → Object} {g g' g'' : Generator n M} {kept : List Bytes} {i : Fin n}

theorem Advances.refl (objects : Fin n → Object) (kept : List Bytes) (g : Generator n M) :
    Advances objects kept g g :=
  ⟨rfl, fun _ h => h, List.suffix_refl _, fun _ _ => Object.Added.refl _ _⟩

theorem Advances.trans (h : Advances objects kept g g') (h' : Advances objects kept g' g'') :
    Advances objects kept g g'' :=
  ⟨h'.visiting.trans h.visiting, fun id hid => h'.attempted id (h.attempted id hid), h.chains.trans h'.chains,
    fun i hi => (h.kept i hi).trans (h'.kept i hi)⟩

theorem Advances.mono {fewer : List Bytes} (hsub : ∀ id ∈ fewer, id ∈ kept) (h : Advances objects kept g g') :
    Advances objects fewer g g' :=
  ⟨h.visiting, h.attempted, h.chains, fun i hi => h.kept i (hsub _ hi)⟩

theorem advances_update (hi : (objects i).id ∉ kept) (g : Generator n M) (o : Object) :
    Advances objects kept g (g.update i o) := by
  refine ⟨rfl, fun _ h => h, List.suffix_refl _, ?_⟩
  intro j hj
  have hne : j ≠ i := by
    rintro rfl
    exact hi hj
  rw [Generator.update_of_ne hne]
  exact Object.Added.refl _ _

/-- The search may change an object it has attempted, if the notes on it stay. -/
theorem Sound.update (h : Sound objects g) (hi : (objects i).id ∈ g.attempted) {o : Object}
    (hsource : o.source = (g.objects i).source) (hbinds : o.BindsNative)
    (hnotes : (g.objects i).Held NotePath → o.Held NotePath) : Sound objects (g.update i o) := by
  refine ⟨?_, ?_, ?_, ?_, h.attempted, h.unregistered, h.registered⟩
  · intro j
    by_cases hj : j = i
    · subst hj
      rw [Generator.update_self, hsource, h.source]
    · rw [Generator.update_of_ne hj, h.source]
  · intro j hfresh
    have hj : j ≠ i := by
      rintro rfl
      exact hfresh hi
    rw [Generator.update_of_ne hj]
    exact h.fresh j hfresh
  · intro j
    by_cases hj : j = i
    · subst hj
      rw [Generator.update_self]
      exact hbinds
    · rw [Generator.update_of_ne hj]
      exact h.binds j
  · intro j k hjk hid
    by_cases hj : j = i
    · subst hj
      rw [Generator.update_self]
      exact hnotes (h.clash j k hjk hid)
    · rw [Generator.update_of_ne hj]
      exact h.clash j k hjk hid

/-- An object the operations of a translator have treated. -/
theorem Sound.update_treated (h : Sound objects g) (hi : (objects i).id ∈ g.attempted) {o : Object}
    (ho : Treated (g.objects i) o) : Sound objects (g.update i o) :=
  h.update hi ho.source (ho.binds (h.binds i)) (ho.held NotePath fun _ hp => hp.alien)

/-- The marks of `expandChain` leave the notes alone. -/
theorem Sound.update_mark (h : Sound objects g) (hi : (objects i).id ∈ g.attempted) (c : Classification)
    (reason : Bytes) : Sound objects (g.update i ((g.objects i).mark chainPath c reason)) :=
  h.update hi rfl (h.binds i) fun hheld => hheld.mark (fun _ hpath => covers_chainPath hpath) c reason

/-- A reference that is not valid is noted. -/
theorem Sound.update_reported (h : Sound objects g) (hi : (objects i).id ∈ g.attempted) (c c' : Classification)
    (reason path reason' : Bytes) :
    Sound objects (g.update i (((g.objects i).mark chainPath c reason).note path c' reason')) := by
  apply h.update hi
  · exact Object.note_source path c' reason'
  · exact (treated_note _ path c' reason').binds (h.binds i)
  · intro hheld
    exact (hheld.mark (fun _ hpath => covers_chainPath hpath) c reason).note path c' reason'

theorem Registered.nodup {table : List (Bytes × List M)} (h : Registered objects table) :
    (table.map Prod.fst).Nodup := by
  induction h with
  | nil => exact List.nodup_nil
  | cons _ hnew _ _ _ ih => exact List.nodup_cons.mpr ⟨hnew, ih⟩

/-- An entry of the table stays what it is while the table grows. -/
theorem lookup_of_suffix {older newer : List (Bytes × List M)} (hnodup : (newer.map Prod.fst).Nodup)
    (hsuffix : older <:+ newer) {id : Bytes} (hid : id ∈ older.map Prod.fst) : newer.lookup id = older.lookup id := by
  obtain ⟨more, rfl⟩ := hsuffix
  rw [List.map_append, List.nodup_append] at hnodup
  have hnone : more.lookup id = none := by
    rw [List.lookup_eq_none_iff]
    intro e he
    rw [bne_iff_ne]
    rintro rfl
    exact hnodup.2.2 _ (List.mem_map_of_mem he) _ hid rfl
  rw [List.lookup_append, hnone, Option.none_or]

end Invariant

/-! ### One call -/

section Step

variable {n : ℕ} {objects : Fin n → Object} {g g' : Generator n M} {i : Fin n} {visiting : List Bytes}

/-- What `expandChain` relies on in its recursive calls. -/
def Settles (objects : Fin n → Object) (visiting : List Bytes) (call : Call n M) : Prop :=
  ∀ g j, Sound objects g → g.visiting = visiting → ∃ g' out, call g j = some (g', out) ∧ Sound objects g' ∧
    Advances objects visiting g g' ∧ ∀ values, out = some values → g'.chains.lookup (objects j).id = some values

theorem id_of_objectAt {id : Bytes} {j : Fin n} (h : objectAt objects id = some j) : (objects j).id = id :=
  beq_iff_eq.mp (List.find?_some (p := fun j => (objects j).id == id) h)

theorem Sound.id (h : Sound objects g) (j : Fin n) : (g.objects j).id = (objects j).id :=
  Object.id_of_source (h.source j)

variable {values : List M}

theorem mem_keys_of_lookup {table : List (Bytes × List M)} {id : Bytes}
    (h : table.lookup id = some values) : id ∈ table.map Prod.fst :=
  List.mem_map_of_mem (mem_of_lookup h)

/-- What the references of a chain have become once they are expanded. -/
structure Expands (table : List (Bytes × List M)) (ids : List Bytes) (values values' : List M) : Prop where
  registered : ∀ id ∈ ids, id ∈ table.map Prod.fst
  concat : values' = values ++ ids.flatMap fun id => textGet table id []
  bound : values.length ≤ 256 → values'.length ≤ 256

/-- A reference that was expanded first. -/
theorem Expands.cons {older newer : List (Bytes × List M)} {id : Bytes} {ids : List Bytes}
    {values child values' : List M} (h : Expands newer ids (values ++ child) values')
    (hnodup : (newer.map Prod.fst).Nodup) (hsuffix : older <:+ newer) (hlookup : older.lookup id = some child)
    (hsize : values.length + child.length ≤ 256) : Expands newer (id :: ids) values values' := by
  have hkey := mem_keys_of_lookup hlookup
  have hget : textGet newer id [] = child := by
    rw [textGet, lookup_of_suffix hnodup hsuffix hkey, hlookup]
    rfl
  refine ⟨?_, ?_, ?_⟩
  · intro id' hid'
    rcases List.mem_cons.mp hid' with rfl | hid'
    · exact (hsuffix.map Prod.fst).subset hkey
    · exact h.registered id' hid'
  · rw [List.flatMap_cons, hget, ← List.append_assoc]
    exact h.concat
  · intro _
    apply h.bound
    rw [List.length_append]
    exact hsize

/-- **The loop over the references.**  It ends, and either a blocking finding is left on the object, or every
reference is registered and its values are appended in order. -/
theorem expandRefs_spec {call : Call n M} (hcall : Settles objects ((objects i).id :: visiting) call)
    (hopen : (objects i).id ∉ visiting) (refs : List Bytes) (hsound : Sound objects g)
    (hvisiting : g.visiting = (objects i).id :: visiting) (hheld : (g.objects i).Held Alien) (values : List M)
    (ok : Bool) :
    ∃ g' values', expandRefs call i refs g values ok = some (g', values') ∧ Sound objects g' ∧
      Advances objects visiting g g' ∧ ((g'.objects i).Held Alien ∨
        ok = true ∧ Expands g'.chains (refs.map (qualified · (objects i).provider)) values values') := by
  induction refs generalizing g values ok with
  | nil =>
    have hattempted : (objects i).id ∈ g.attempted :=
      hsound.attempted _ (by rw [hvisiting]; exact List.mem_cons_self)
    cases ok with
    | false => exact ⟨g, values, rfl, hsound, Advances.refl _ _ g, Or.inl hheld⟩
    | true =>
      refine ⟨_, values, rfl, hsound.update_mark hattempted _ _, advances_update hopen g _, Or.inr ⟨rfl, ?_⟩⟩
      exact ⟨fun _ h => absurd h List.not_mem_nil, (List.append_nil _).symm, fun h => h⟩
  | cons ref refs ih =>
    have hattempted : (objects i).id ∈ g.attempted :=
      hsound.attempted _ (by rw [hvisiting]; exact List.mem_cons_self)
    have hprovider : (g.objects i).provider = (objects i).provider := Object.provider_of_source (hsound.source i)
    rw [expandRefs]
    simp only [hprovider]
    cases hdep : objectAt g.objects (qualified ref (objects i).provider) with
    | none =>
      -- the object of the reference is missing, and the chain list stays untranslated
      obtain ⟨g', values', hrun, hsound', hadv, hout⟩ := ih hsound hvisiting hheld values false
      refine ⟨g', values', hrun, hsound', hadv, Or.inl ?_⟩
      rcases hout with hout | ⟨hfalse, -⟩
      · exact hout
      · cases hfalse
    | some dep =>
      obtain ⟨g₁, out, hcallrun, hsound₁, hadv₁, hout₁⟩ := hcall g dep hsound hvisiting
      have hvisiting₁ : g₁.visiting = (objects i).id :: visiting := hadv₁.visiting.trans hvisiting
      have hattempted₁ := hadv₁.attempted _ hattempted
      have hheld₁ : (g₁.objects i).Held Alien := hheld.added (hadv₁.kept i List.mem_cons_self)
      have hadv₁' : Advances objects visiting g g₁ := hadv₁.mono fun id hid => List.mem_cons_of_mem _ hid
      cases out with
      | none =>
        simp only [hcallrun]
        have hnote : NotePath (lit "$middleware:" ++ qualified ref (objects i).provider) :=
          List.IsPrefix.trans (by decide) (List.prefix_append _ _)
        obtain ⟨g', values', hrun, hsound', hadv, hout⟩ := ih (hsound₁.update_reported hattempted₁ .exact .manual
          (lit "provider-qualified chain dependencies are reported separately") _
          (lit "chain blocked by referenced middleware; see its field findings")) hvisiting₁
          (by rw [Generator.update_self]; exact Object.held_note rfl hnote.alien _) values false
        refine ⟨g', values', hrun, hsound', (hadv₁'.trans (advances_update hopen g₁ _)).trans hadv, Or.inl ?_⟩
        rcases hout with hout | ⟨hfalse, -⟩
        · exact hout
        · cases hfalse
      | some child =>
        simp only [hcallrun]
        split
        · refine ⟨_, values, rfl, hsound₁.update_treated hattempted₁ (treated_note _ _ _ _),
            hadv₁'.trans (advances_update hopen g₁ _), Or.inl ?_⟩
          rw [Generator.update_self]
          exact Object.held_note rfl (NotePath.alien (by decide)) _
        · rename_i hsize
          obtain ⟨g', values', hrun, hsound', hadv, hout⟩ := ih hsound₁ hvisiting₁ hheld₁ (values ++ child) ok
          refine ⟨g', values', hrun, hsound', hadv₁'.trans hadv, hout.imp (fun h => h) ?_⟩
          rintro ⟨hok, hexpands⟩
          have hid : (objects dep).id = qualified ref (objects i).provider := by
            rw [← id_of_objectAt hdep, hsound.id]
          have hlookup : g₁.chains.lookup (qualified ref (objects i).provider) = some child := by
            rw [← hid]
            exact hout₁ child rfl
          exact ⟨hok, hexpands.cons hsound'.registered.nodup hadv.chains hlookup (by omega)⟩

/-- What is known of a middleware when its translation is complete. -/
def Complete (objects : Fin n → Object) (g : Generator n M) (i : Fin n) (values : List M) : Prop :=
  (∀ id ∈ (objects i).references, id ∈ g.chains.map Prod.fst) ∧
    ((objects i).PureChain → ((objects i).value chainPath).isNull = true ∧ values = [] ∨
      Concatenates g.chains (objects i) values)

theorem isNull_eq_false_of_chainList {o : Object} {refs : List Bytes} (h : o.chainList = some refs) :
    (o.value chainPath).isNull = false := by
  rw [Object.chainList] at h
  cases hvalue : o.value chainPath with
  | null =>
    rw [hvalue, stringList] at h
    · cases h
    all_goals intros; contradiction
  | _ => rfl

theorem chainList_of_source {o o' : Object} (h : o'.source = o.source) : o'.chainList = o.chainList := by
  rw [Object.chainList, Object.chainList, Object.value_of_source h, Object.provider_of_source h]

/-- **Expansion.**  `expandChain` ends, and leaves a blocking finding unless the middleware is complete. -/
theorem expandChain_spec {call : Call n M}
    (hcall : Settles objects ((objects i).id :: visiting) call)
    (hopen : (objects i).id ∉ visiting) (hsound : Sound objects g)
    (hvisiting : g.visiting = (objects i).id :: visiting)
    (hpending : ((objects i).value chainPath).isNull = false → (g.objects i).Held Alien)
    (hpure : (objects i).PureChain → values = []) :
    ∃ g' values', expandChain call g i values = some (g', values') ∧ Sound objects g' ∧
      Advances objects visiting g g' ∧ ((g'.objects i).Held Alien ∨ Complete objects g' i values') := by
  rw [expandChain, chainList_of_source (hsound.source i)]
  cases hlist : (objects i).chainList with
  | none =>
    refine ⟨g, values, rfl, hsound, Advances.refl _ _ g, ?_⟩
    cases hnull : ((objects i).value chainPath).isNull with
    | false => exact Or.inl (hpending hnull)
    | true =>
      refine Or.inr ⟨?_, fun hp => Or.inl ⟨hnull, hpure hp⟩⟩
      intro id hid
      rw [Object.references, hlist] at hid
      exact absurd hid List.not_mem_nil
  | some refs =>
    have hheld := hpending (isNull_eq_false_of_chainList hlist)
    simp only
    split
    · exact ⟨g, values, rfl, hsound, Advances.refl _ _ g, Or.inl hheld⟩
    · rename_i hne
      obtain ⟨g', values', hrun, hsound', hadv, hout⟩ :=
        expandRefs_spec hcall hopen refs hsound hvisiting hheld values true
      refine ⟨g', values', hrun, hsound', hadv, hout.imp (fun h => h) ?_⟩
      rintro ⟨-, hexpands⟩
      have hrefs : refs.map (qualified · (objects i).provider) = (objects i).references := by
        rw [Object.references, hlist]
        rfl
      rw [hrefs] at hexpands
      refine ⟨hexpands.registered, fun hp => Or.inr ⟨⟨refs, hlist, by simpa using hne⟩, ?_, ?_⟩⟩
      · rw [hexpands.concat, hpure hp, List.nil_append]
      · apply hexpands.bound
        rw [hpure hp]
        exact Nat.zero_le _

theorem treated_classifyEmptyHeaders (o : Object) (values : List M) : Treated o (classifyEmptyHeaders o values) := by
  rw [classifyEmptyHeaders]
  split
  · exact treated_note o _ _ _
  · exact Treated.refl o

/-- A ready object has no blocking finding at an alien path. -/
theorem not_held_of_ready {o : Object} (hbinds : o.BindsNative) (h : o.readyWithBindings = true) :
    ¬ o.Held Alien := by
  intro hheld
  have hnot := hheld.not_ready fun path hpath hmem => ?_
  · rw [hnot] at h
    exact Bool.false_ne_true h
  · obtain ⟨family, hfamily, hstart⟩ := hbinds _ hmem
    rw [toLower_idem] at hstart
    exact hpath.not_family hfamily hstart

/-- The invariant when the visit of a middleware ends. -/
theorem Sound.leave (h : Sound objects g) (id : Bytes) :
    Sound objects { g with visiting := g.visiting.erase id } :=
  ⟨h.source, h.fresh, h.binds, h.clash, fun _ hid => h.attempted _ (List.mem_of_mem_erase hid),
    fun _ hid => h.unregistered _ (List.mem_of_mem_erase hid), h.registered⟩

/-- The invariant when a middleware is attempted. -/
theorem Sound.attempt (h : Sound objects g) (id : Bytes) : Sound objects { g with attempted := id :: g.attempted } :=
  ⟨h.source, fun j hj => h.fresh j fun hmem => hj (List.mem_cons_of_mem _ hmem), h.binds, h.clash,
    fun _ hid => List.mem_cons_of_mem _ (h.attempted _ hid), h.unregistered, h.registered⟩

/-- The invariant when the visit of a middleware begins. -/
theorem Sound.enter (h : Sound objects g) {id : Bytes} (hid : id ∉ g.chains.map Prod.fst) :
    Sound objects { g with visiting := id :: g.visiting, attempted := id :: g.attempted } := by
  refine ⟨h.source, (h.attempt id).fresh, h.binds, h.clash, ?_, ?_, h.registered⟩
  · intro id' hid'
    rcases List.mem_cons.mp hid' with rfl | hid'
    · exact List.mem_cons_self
    · exact List.mem_cons_of_mem _ (h.attempted id' hid')
  · intro id' hid'
    rcases List.mem_cons.mp hid' with rfl | hid'
    · exact hid
    · exact h.unregistered id' hid'

/-- The invariant when a middleware is registered. -/
theorem Sound.register (h : Sound objects g) (hopen : (objects i).id ∉ g.visiting)
    (hnew : (objects i).id ∉ g.chains.map Prod.fst)
    (hunique : ∀ j, (objects j).id = (objects i).id → j = i)
    (hrefs : ∀ id ∈ (objects i).references, id ∈ g.chains.map Prod.fst)
    (hpure : (objects i).PureChain → Concatenates g.chains (objects i) values) :
    Sound objects { g with chains := ((objects i).id, values) :: g.chains } := by
  refine ⟨h.source, h.fresh, h.binds, h.clash, h.attempted, ?_, .cons h.registered hnew hunique hrefs hpure⟩
  intro id hid hmem
  rcases List.mem_cons.mp hmem with rfl | hmem
  · exact hopen hid
  · exact h.unregistered id hid hmem

/-- A middleware that is ready is complete, and no other has its identity. -/
theorem ready_complete (hsound : Sound objects g)
    (hout : (g.objects i).Held Alien ∨ Complete objects g i values) {o : Object}
    (ho : Treated (g.objects i) o) (hready : o.readyWithBindings = true) :
    Complete objects g i values ∧ ∀ j, (objects j).id = (objects i).id → j = i := by
  have hnot : ¬ (g.objects i).Held Alien := fun hheld =>
    not_held_of_ready (ho.binds (hsound.binds i)) hready (ho.held Alien (fun _ h => h) hheld)
  refine ⟨hout.resolve_left hnot, ?_⟩
  intro j hid
  by_contra hne
  exact hnot ((hsound.clash i j (Ne.symm hne) hid.symm).mono fun _ hpath => hpath.alien)

/-- **The end of a visit.**  A middleware is registered only if it is complete. -/
theorem settle_spec (T : Translators M) (hsound : Sound objects g)
    (hvisiting : g.visiting = (objects i).id :: visiting) (hopen : (objects i).id ∉ visiting)
    (hout : (g.objects i).Held Alien ∨ Complete objects g i values) :
    ∃ g' out, settle T g i values = (g', out) ∧ Sound objects g' ∧ g'.visiting = visiting ∧
      g'.attempted = g.attempted ∧ g.chains <:+ g'.chains ∧
      (∀ j, (objects j).id ∈ visiting → g'.objects j = g.objects j) ∧
      ∀ values', out = some values' → g'.chains.lookup (objects i).id = some values' := by
  have hself : (objects i).id ∈ g.visiting := by rw [hvisiting]; exact List.mem_cons_self
  have ho := treated_classifyEmptyHeaders (g.objects i) values
  have hsource := ho.source.trans (hsound.source i)
  rw [settle]
  generalize classifyEmptyHeaders (g.objects i) values = o at ho hsource
  simp only [Object.id_of_source hsource, Object.value_of_source hsource]
  have hleft := (hsound.update_treated (hsound.attempted _ hself) ho).leave (objects i).id
  have herase : (g.update i o).visiting.erase (objects i).id = visiting := by
    show g.visiting.erase (objects i).id = visiting
    rw [hvisiting, List.erase_cons_head]
  have hothers : ∀ j, (objects j).id ∈ visiting → (g.update i o).objects j = g.objects j := by
    intro j hj
    apply Generator.update_of_ne
    rintro rfl
    exact hopen hj
  generalize hvalues : (if (!values.isEmpty && ((objects i).value chainPath).isNull) = true then [T.inOrder values]
    else values) = values'
  cases hready : nativeMiddlewareReady o values' with
  | false =>
    refine ⟨_, none, rfl, hleft, herase, rfl, List.suffix_refl _, hothers, ?_⟩
    intro values' hvalues'
    cases hvalues'
  | true =>
    rw [nativeMiddlewareReady, Bool.and_eq_true, Object.value_of_source hsource, Object.value_of_source hsource]
      at hready
    obtain ⟨hcomplete, hunique⟩ := ready_complete hsound hout ho hready.1
    refine ⟨_, some values', rfl, ?_, herase, rfl, List.suffix_cons _ _, hothers, ?_⟩
    · apply hleft.register (by rw [herase]; exact hopen) (hsound.unregistered _ hself) hunique hcomplete.1
      intro hpure
      rcases hcomplete.2 hpure with ⟨hnull, rfl⟩ | hconcat
      · -- a chain without a list and without values is not ready
        have hsts : (objects i).value (lit "headers.stsSeconds") = .null :=
          value_eq_null_of_pure hpure (by decide) (by decide)
        have hempty : values' = [] := hvalues.symm
        rw [hempty, hnull, hsts] at hready
        exact absurd hready.2 Bool.false_ne_true
      · obtain ⟨refs, hlist, -⟩ := hconcat.1
        rw [isNull_eq_false_of_chainList hlist, Bool.and_false, if_neg Bool.false_ne_true] at hvalues
        exact hvalues ▸ hconcat
    · intro values'' hvalues''
      cases hvalues''
      exact List.lookup_cons_self

theorem not_mem_keys_of_lookup {table : List (Bytes × List M)} {id : Bytes} (h : table.lookup id = none) :
    id ∉ table.map Prod.fst := by
  intro hmem
  obtain ⟨e, he, rfl⟩ := List.mem_map.mp hmem
  have hne := List.lookup_eq_none_iff.mp h e he
  rw [bne_self_eq_false] at hne
  exact Bool.false_ne_true hne

/-- **One call.**  Within 64 nested visits a call ends, keeps the invariant, and answers with the chain that
is registered for the middleware. -/
theorem chain_spec (T : Translators M) (hindexed : Indexed objects) (fuel : ℕ) :
    ∀ (g : Generator n M) (i : Fin n), Sound objects g → 1 ≤ fuel → 65 ≤ fuel + g.visiting.length →
    ∃ g' out, chain T fuel g i = some (g', out) ∧ Sound objects g' ∧ Advances objects g.visiting g g' ∧
      ∀ values, out = some values → g'.chains.lookup (objects i).id = some values := by
  induction fuel with
  | zero => exact fun g i _ h _ => absurd h (by omega)
  | succ fuel ih =>
    intro g i hsound _ hfuel
    rw [chain]
    simp only [hsound.id i]
    cases hlookup : g.chains.lookup (objects i).id with
    | some values =>
      refine ⟨g, some values, rfl, hsound, Advances.refl _ _ g, ?_⟩
      intro values' hvalues'
      cases hvalues'
      exact hlookup
    | none =>
      simp only
      split
      · rename_i hcycle
        refine ⟨_, none, rfl, hsound.update_treated (hsound.attempted _ hcycle) (treated_note _ _ _ _), ?_,
          fun _ h => by cases h⟩
        refine ⟨rfl, fun _ h => h, List.suffix_refl _, ?_⟩
        intro j _
        by_cases hj : j = i
        · subst hj
          rw [Generator.update_self]
          exact Object.added_note rfl (by decide) _
        · rw [Generator.update_of_ne hj]
          exact Object.Added.refl _ _
      · rename_i hopen
        split
        · exact ⟨g, none, rfl, hsound, Advances.refl _ _ g, fun _ h => by cases h⟩
        · rename_i hnew
          split
          · refine ⟨_, none, rfl, (hsound.attempt (objects i).id).update_treated List.mem_cons_self
              (treated_note _ _ _ _), ?_, fun _ h => by cases h⟩
            have hadv := advances_update hopen g ((g.objects i).note (lit "$depth") .unsupported
              (lit "middleware chain nesting exceeds 64"))
            exact ⟨hadv.visiting, fun _ h => List.mem_cons_of_mem _ h, hadv.chains, hadv.kept⟩
          · rename_i hdepth
            -- the middleware is visited; what it refers to is one level deeper
            have hcall : Settles objects ((objects i).id :: g.visiting) (chain T fuel) := by
              intro g₁ j hsound₁ hvisiting₁
              obtain ⟨g₂, out, hrun, hsound₂, hadv, hout⟩ := ih g₁ j hsound₁ (by omega)
                (by rw [hvisiting₁, List.length_cons]; omega)
              exact ⟨g₂, out, hrun, hsound₂, hvisiting₁ ▸ hadv, hout⟩
            have hfresh := hsound.fresh i hnew
            have htreated := treated_translateAll T (g.objects i)
            have hentered := (hsound.enter (not_mem_keys_of_lookup hlookup)).update_treated (i := i)
              List.mem_cons_self htreated
            have hpure : (objects i).PureChain → (T.translateAll (g.objects i)).2 = [] := by
              intro hpure
              rw [hfresh]
              exact translateAll_of_pure T hpure (hindexed.foreign i hpure)
            obtain ⟨g₁, values, hrun, hsound₁, hadv₁, hout₁⟩ := expandChain_spec hcall hopen hentered rfl
              (fun hnull => by
                rw [Generator.update_self]
                apply htreated.held Alien (fun _ h => h)
                rw [hfresh]
                exact hindexed.pending i hnull) hpure
            obtain ⟨g₂, out, hsettle, hsound₂, hvisiting₂, hattempted₂, hchains₂, hothers₂, hout₂⟩ :=
              settle_spec T hsound₁ hadv₁.visiting hopen hout₁
            refine ⟨g₂, out, ?_, hsound₂, ?_, hout₂⟩
            · have hmap : ∀ e : Option (Generator n M × List M), e = some (g₁, values) →
                  (e.map fun s => settle T s.1 i s.2) = some (g₂, out) := by
                rintro _ rfl
                rw [Option.map_some, hsettle]
              exact hmap _ hrun
            · refine ⟨hvisiting₂, ?_, hadv₁.chains.trans hchains₂, ?_⟩
              · intro id hid
                rw [hattempted₂]
                exact hadv₁.attempted id (List.mem_cons_of_mem _ hid)
              · intro j hj
                have hne : j ≠ i := by
                  rintro rfl
                  exact hopen hj
                have hkept := hadv₁.kept j hj
                rw [Generator.update_of_ne hne] at hkept
                rw [hothers₂ j hj]
                exact hkept

end Step

/-! ### The whole run -/

section Run

variable {n : ℕ} {objects : Fin n → Object}

theorem expandRefs_mono {call call' : Call n M} (hcall : ∀ g j out, call g j = some out → call' g j = some out)
    {i : Fin n} {refs : List Bytes} {g : Generator n M} {values : List M} {ok : Bool} {out : Generator n M × List M}
    (h : expandRefs call i refs g values ok = some out) : expandRefs call' i refs g values ok = some out := by
  induction refs generalizing g values ok with
  | nil => exact h
  | cons ref refs ih =>
    rw [expandRefs] at h ⊢
    simp only at h ⊢
    cases hdep : objectAt g.objects (qualified ref (g.objects i).provider) with
    | none =>
      rw [hdep] at h
      exact ih h
    | some dep =>
      rw [hdep] at h
      simp only at h ⊢
      cases hrun : call g dep with
      | none =>
        rw [hrun] at h
        cases h
      | some result =>
        obtain ⟨g₁, child⟩ := result
        rw [hrun] at h
        rw [hcall g dep _ hrun]
        cases child with
        | none => exact ih h
        | some child =>
          simp only at h ⊢
          split at h
          · rename_i hsize
            rw [if_pos hsize]
            exact h
          · rename_i hsize
            rw [if_neg hsize]
            exact ih h

theorem expandChain_mono {call call' : Call n M} (hcall : ∀ g j out, call g j = some out → call' g j = some out)
    {i : Fin n} {g : Generator n M} {values : List M} {out : Generator n M × List M}
    (h : expandChain call g i values = some out) : expandChain call' g i values = some out := by
  rw [expandChain] at h ⊢
  cases hlist : (g.objects i).chainList with
  | none =>
    rw [hlist] at h
    exact h
  | some refs =>
    rw [hlist] at h
    simp only at h ⊢
    split at h
    · rename_i hempty
      rw [if_pos hempty]
      exact h
    · rename_i hempty
      rw [if_neg hempty]
      exact expandRefs_mono hcall h

/-- A call that ends within a bound ends the same way within a larger one. -/
theorem chain_mono (T : Translators M) {fuel : ℕ} {g : Generator n M} {i : Fin n}
    {out : Generator n M × Option (List M)} (h : chain T fuel g i = some out) : chain T (fuel + 1) g i = some out := by
  induction fuel generalizing g i out with
  | zero => cases h
  | succ fuel ih =>
    rw [chain] at h ⊢
    simp only at h ⊢
    cases hlookup : g.chains.lookup (g.objects i).id with
    | some values =>
      rw [hlookup] at h
      exact h
    | none =>
      rw [hlookup] at h
      simp only at h ⊢
      split at h
      · rename_i hcycle
        rw [if_pos hcycle]
        exact h
      · rename_i hcycle
        rw [if_neg hcycle]
        split at h
        · rename_i hattempted
          rw [if_pos hattempted]
          exact h
        · rename_i hattempted
          rw [if_neg hattempted]
          split at h
          · rename_i hdepth
            rw [if_pos hdepth]
            exact h
          · rename_i hdepth
            rw [if_neg hdepth]
            obtain ⟨expanded, hexpand, hsettle⟩ := Option.map_eq_some_iff.mp h
            refine Option.map_eq_some_iff.mpr ⟨expanded, ?_, hsettle⟩
            exact expandChain_mono (fun g j out => ih) hexpand

theorem chain_mono_le (T : Translators M) {fuel more : ℕ} (hle : fuel ≤ more) {g : Generator n M} {i : Fin n}
    {out : Generator n M × Option (List M)} (h : chain T fuel g i = some out) : chain T more g i = some out := by
  induction more, hle using Nat.le_induction with
  | base => exact h
  | succ more _ ih => exact chain_mono T ih

theorem Indexed.sound (h : Indexed objects) : Sound objects ({ objects := objects } : Generator n M) where
  source _ := rfl
  fresh _ _ := rfl
  binds i := by
    intro path hpath
    rw [show ({ objects := objects } : Generator n M).objects i = objects i from rfl, h.bindings i] at hpath
    exact absurd hpath List.not_mem_nil
  clash := h.clash
  attempted _ hid := absurd hid List.not_mem_nil
  unregistered _ hid := absurd hid List.not_mem_nil
  registered := .nil

/-- The calls of `generate` end, whatever the bound beyond 64 nested visits, and keep the invariant. -/
theorem chains_spec (T : Translators M) (hindexed : Indexed objects) :
    ∃ g : Generator n M, (∀ fuel, 65 ≤ fuel → chains T fuel objects = some g) ∧ Sound objects g := by
  have hrun : ∀ (l : List (Fin n)) (g : Generator n M), Sound objects g → g.visiting = [] →
      ∃ g', (∀ fuel, 65 ≤ fuel → l.foldlM (fun g i => (chain T fuel g i).map Prod.fst) g = some g') ∧
        Sound objects g' := by
    intro l
    induction l with
    | nil => exact fun g hsound _ => ⟨g, fun _ _ => rfl, hsound⟩
    | cons i l ih =>
      intro g hsound hvisiting
      obtain ⟨g₁, out, hcall, hsound₁, hadv, -⟩ := chain_spec T hindexed 65 g i hsound (by omega) (by omega)
      obtain ⟨g₂, hrest, hsound₂⟩ := ih g₁ hsound₁ (hadv.visiting.trans hvisiting)
      refine ⟨g₂, ?_, hsound₂⟩
      intro fuel hfuel
      rw [List.foldlM_cons, chain_mono_le T hfuel hcall]
      exact hrest fuel hfuel
  exact hrun _ _ hindexed.sound rfl

/-- One identity refers to another through the chain list of a middleware. -/
def Refers (objects : Fin n → Object) (id target : Bytes) : Prop :=
  ∃ i, (objects i).id = id ∧ target ∈ (objects i).references

variable {table : List (Bytes × List M)}

theorem Registered.postorder (h : Registered objects table) :
    Postorder (Refers objects) (table.map Prod.fst) := by
  induction h with
  | nil => exact .nil
  | cons _ hnew hunique hrefs _ ih =>
    refine .cons ih hnew ?_
    rintro target ⟨j, hid, htarget⟩
    exact hrefs target (hunique j hid ▸ htarget)

theorem Registered.exists_object (h : Registered objects table) {id : Bytes}
    (hid : id ∈ table.map Prod.fst) : ∃ i, (objects i).id = id := by
  induction h with
  | nil => exact absurd hid List.not_mem_nil
  | @cons i _ _ _ _ _ _ _ ih =>
    rcases List.mem_cons.mp hid with rfl | hid
    · exact ⟨i, rfl⟩
    · exact ih hid

/-- The entry of a pure chain concatenates entries of the whole table. -/
theorem Registered.concatenates (h : Registered objects table) {i : Fin n} {values : List M}
    (hlookup : table.lookup (objects i).id = some values) (hpure : (objects i).PureChain) :
    Concatenates table (objects i) values := by
  induction h with
  | nil => cases hlookup
  | @cons j values' older holder hnew hunique hrefs hconcat ih =>
    have hnodup : ((((objects j).id, values') :: older).map Prod.fst).Nodup :=
      List.nodup_cons.mpr ⟨hnew, holder.nodup⟩
    -- what the entry says of the older table it says of the longer one
    have hgrow : ∀ values, (∀ id ∈ (objects i).references, id ∈ older.map Prod.fst) →
        Concatenates older (objects i) values →
        Concatenates (((objects j).id, values') :: older) (objects i) values := by
      rintro values hrefs ⟨hlist, hvalues, hbound⟩
      refine ⟨hlist, ?_, hbound⟩
      rw [hvalues]
      apply List.flatMap_congr
      intro id hid
      rw [textGet, textGet, lookup_of_suffix hnodup (List.suffix_cons _ _) (hrefs id hid)]
    by_cases hid : (objects i).id = (objects j).id
    · obtain rfl := hunique i hid
      rw [List.lookup_cons_self] at hlookup
      cases hlookup
      exact hgrow _ hrefs (hconcat hpure)
    · rw [List.lookup_cons, beq_false_of_ne hid] at hlookup
      have hmem := mem_keys_of_lookup hlookup
      refine hgrow _ ?_ (ih hlookup)
      intro target htarget
      exact holder.postorder.closed hmem ⟨i, rfl, htarget⟩

/-- **Chain migration.**  For every list of middleware sources the search ends.  Whatever a registered
identity reaches through chain references exists, is registered, and lies on no cycle; and the values of a
pure chain are those of its references, in order, at most 256 of them. -/
theorem chain_migration (T : Translators M) (quote : Bytes → Bytes) (sources : List Source) :
    ∃ g : Generator sources.length M,
      (∀ fuel, 65 ≤ fuel → chains T fuel (indexedObjects quote sources) = some g) ∧
      (∀ id ∈ g.chains.map Prod.fst, ∀ target,
        Relation.ReflTransGen (Refers (indexedObjects quote sources)) id target →
        (∃ i, (indexedObjects quote sources i).id = target) ∧ target ∈ g.chains.map Prod.fst ∧
          ¬ Relation.TransGen (Refers (indexedObjects quote sources)) target target) ∧
      ∀ i values, g.chains.lookup (indexedObjects quote sources i).id = some values →
        (indexedObjects quote sources i).PureChain →
        Concatenates g.chains (indexedObjects quote sources i) values := by
  obtain ⟨g, hrun, hsound⟩ := chains_spec T (indexed quote sources)
  refine ⟨g, hrun, ?_, ?_⟩
  · intro id hid target hreach
    have htarget := hsound.registered.postorder.reachable hid hreach
    exact ⟨hsound.registered.exists_object htarget, htarget, hsound.registered.postorder.acyclic htarget⟩
  · intro i values hlookup hpure
    exact hsound.registered.concatenates hlookup hpure

/-- The part of `nativeRewrite` for `addPrefix`. -/
def addPrefixOnly : Translators Bytes := .ofSource List.flatten fun t o _ =>
  match t, o.value (lit "addPrefix.prefix") with
  | .nativeRewrite, .str text =>
    if text.isEmpty || !literal text then []
    else [⟨.append text, rfl⟩, ⟨.mark (lit "addPrefix.prefix") .translated
      (lit "prefix applied at its declared middleware position"), by decide⟩]
  | _, _ => []

/-- A chain with two references to one middleware, and one with a missing reference. -/
def pairSources : List Source :=
  [⟨.file, lit "pair", .map [(lit "chain", .map [(lit "middlewares", .list [.str (lit "a"), .str (lit "a")])])], false⟩,
    ⟨.file, lit "a", .map [(lit "addPrefix", .map [(lit "prefix", .str (lit "/v"))])], false⟩,
    ⟨.docker, lit "b", .map [(lit "chain.middlewares", .str (lit "gone, a@file"))], false⟩]

theorem chain_migration_pair : ∃ g : Generator pairSources.length Bytes,
    chains addPrefixOnly 65 (indexedObjects id pairSources) = some g ∧
    g.chains = [(lit "pair@file", [lit "/v", lit "/v"]), (lit "a@file", [lit "/v"])] ∧
    ∀ target, Relation.ReflTransGen (Refers (indexedObjects id pairSources)) (lit "pair@file") target →
      target ∈ g.chains.map Prod.fst ∧
        ¬ Relation.TransGen (Refers (indexedObjects id pairSources)) target target := by
  obtain ⟨g, hrun, hreach, -⟩ := chain_migration addPrefixOnly id pairSources
  have hchains : (chains addPrefixOnly 65 (indexedObjects id pairSources)).map (·.chains) =
      some [(lit "pair@file", [lit "/v", lit "/v"]), (lit "a@file", [lit "/v"])] := by decide +kernel
  rw [hrun 65 le_rfl] at hchains
  have hg : g.chains = [(lit "pair@file", [lit "/v", lit "/v"]), (lit "a@file", [lit "/v"])] :=
    Option.some.inj hchains
  refine ⟨g, hrun 65 le_rfl, hg, fun target htarget => (hreach _ ?_ target htarget).2⟩
  rw [hg]
  exact List.mem_cons_self

end Run

end Statute.Migrate
