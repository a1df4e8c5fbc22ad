import Statute.Cache.Store
import Mathlib.Data.Finset.Card
import Mathlib.Data.Finset.Range

/-!
# The retained list

`Linked c l` says that the links of a cache spell out the list `l`, and that `l` holds exactly the
retained entries.  Retiring an entry erases it from the list and gives up one reference
(`Linked.retireLocked`), and the loops of the store are runs of retirements: what one retirement
preserves they preserve (`retireWhere_preserves`).
-/

namespace Statute.Cache

open Statute.Base

namespace CacheEntry

/-- An entry after one reference has gone; the last one closes it. -/
def released (x : CacheEntry) : CacheEntry :=
  if x.refs - 1 ≠ 0 then { x with refs := x.refs - 1 }
  else { x with refs := x.refs - 1, buf := none, vary := [], key := {}, returns := x.returns + 1 }

/-- What an entry holds apart from its links. -/
def data (x : CacheEntry) : CacheEntry := { x with prev := none, next := none }

/-- What does not read the links agrees on entries with the same data. -/
theorem eq_of_data {β : Type} (f : CacheEntry → β) (hf : ∀ x : CacheEntry, f x.data = f x)
    {x y : CacheEntry} (h : x.data = y.data) : f x = f y := by
  rw [← hf x, h, hf y]

end CacheEntry

namespace TtlCache

variable {c : TtlCache} {e : ℕ}

/-! ### One lemma per field -/

@[simp] theorem entry_updateEntry (c : TtlCache) (e j : ℕ) (f : CacheEntry → CacheEntry) :
    (c.updateEntry e f).entry j = if j = e then f (c.entry e) else c.entry j := by
  simp [entry, updateEntry]

@[simp] theorem buffer_updateEntry (c : TtlCache) (e b : ℕ) (f : CacheEntry → CacheEntry) :
    (c.updateEntry e f).buffer b = c.buffer b := rfl

@[simp] theorem entry_updateBuffer (c : TtlCache) (b e : ℕ) (f : ResponseBuffer → ResponseBuffer) :
    (c.updateBuffer b f).entry e = c.entry e := rfl

@[simp] theorem buffer_updateBuffer (c : TtlCache) (b j : ℕ) (f : ResponseBuffer → ResponseBuffer) :
    (c.updateBuffer b f).buffer j = if j = b then f (c.buffer b) else c.buffer j := by
  simp [buffer, updateBuffer]

@[simp] theorem entries_returnArray (c : TtlCache) (a : Option ℕ) :
    (c.returnArray a).entries = c.entries := by
  cases a <;> rfl

@[simp] theorem buffers_returnArray (c : TtlCache) (a : Option ℕ) :
    (c.returnArray a).buffers = c.buffers := by
  cases a <;> rfl

@[simp] theorem head_returnArray (c : TtlCache) (a : Option ℕ) : (c.returnArray a).head = c.head := by
  cases a <;> rfl

@[simp] theorem tail_returnArray (c : TtlCache) (a : Option ℕ) : (c.returnArray a).tail = c.tail := by
  cases a <;> rfl

@[simp] theorem limits_returnArray (c : TtlCache) (a : Option ℕ) :
    (c.returnArray a).limit = c.limit ∧ (c.returnArray a).ttl = c.ttl ∧
      (c.returnArray a).count = c.count ∧ (c.returnArray a).budget.limit = c.budget.limit := by
  cases a <;> exact ⟨rfl, rfl, rfl, rfl⟩

theorem entry_closeEntry (c : TtlCache) (e j : ℕ) :
    (c.closeEntry e).entry j = if j = e then
        { c.entry e with buf := none, vary := [], key := {}, returns := (c.entry e).returns + 1 }
      else c.entry j := by
  unfold closeEntry
  cases hbuf : (c.entry e).buf with
  | none =>
    by_cases hj : j = e
    · subst hj
      simp [entry, updateEntry] at hbuf ⊢
      simp [hbuf]
    · simp [entry, updateEntry, hj]
  | some b =>
    by_cases hj : j = e
    · subst hj
      simp [entry, updateEntry, releaseBuffer, updateBuffer]
    · simp [entry, updateEntry, releaseBuffer, updateBuffer, hj]

theorem closeEntry_frame (c : TtlCache) (e : ℕ) :
    (c.closeEntry e).head = c.head ∧ (c.closeEntry e).tail = c.tail ∧
      (c.closeEntry e).limit = c.limit ∧ (c.closeEntry e).ttl = c.ttl ∧
      (c.closeEntry e).entries.size = c.entries.size ∧
      (c.closeEntry e).budget.limit = c.budget.limit := by
  unfold closeEntry
  cases (c.entry e).buf with
  | none => exact ⟨rfl, rfl, rfl, rfl, rfl, rfl⟩
  | some b => simp [updateEntry, releaseBuffer, updateBuffer, Budget.release]

/-- The capacity behind a body. -/
def held (c : TtlCache) : Option ℕ → ℤ
  | none => 0
  | some a => (c.arrays.cell a).capacity

@[simp] theorem used_returnArray (c : TtlCache) (a : Option ℕ) :
    (c.returnArray a).budget.used = c.budget.used - c.held a := by
  cases a with
  | none => simp [returnArray, held]
  | some a => rfl

@[simp] theorem size_arrays_returnArray (c : TtlCache) (a : Option ℕ) :
    (c.returnArray a).arrays.size = c.arrays.size := by
  cases a <;> rfl

@[simp] theorem array_returnArray (c : TtlCache) (a : Option ℕ) (j : ℕ) :
    (c.returnArray a).arrays.cell j =
      if a = some j then { c.arrays.cell j with returns := (c.arrays.cell j).returns + 1 }
      else c.arrays.cell j := by
  cases a with
  | none => simp [returnArray]
  | some a =>
    by_cases hj : j = a
    · subst hj
      simp [returnArray]
    · simp [returnArray, hj, Ne.symm hj]

theorem buffer_closeEntry (c : TtlCache) (e b : ℕ) :
    (c.closeEntry e).buffer b =
      if (c.entry e).buf = some b then { c.buffer b with body := none, length := 0 }
      else c.buffer b := by
  unfold closeEntry
  cases hbuf : (c.entry e).buf with
  | none => simp [buffer, updateEntry]
  | some b' =>
    by_cases hb : b = b'
    · subst hb
      simp [buffer, updateEntry, releaseBuffer, updateBuffer]
    · simp [buffer, updateEntry, releaseBuffer, updateBuffer, hb, Ne.symm hb]

theorem closeEntry_returns (c : TtlCache) (e : ℕ) :
    (c.closeEntry e).arrays = (c.returnArray (c.bodyOf (c.entry e))).arrays ∧
      (c.closeEntry e).budget.used =
        c.budget.used - c.held (c.bodyOf (c.entry e)) - (c.entry e).charge ∧
      (c.closeEntry e).count = c.count - 1 ∧
      (c.closeEntry e).buffers.size = c.buffers.size := by
  unfold closeEntry
  cases hbuf : (c.entry e).buf with
  | none => simp [bodyOf, hbuf, updateEntry, returnArray, held, Budget.release]
  | some b =>
    have hbody : c.bodyOf (c.entry e) = (c.buffer b).body := by
      rw [bodyOf, hbuf]
      rfl
    rw [hbody]
    cases harray : (c.buffer b).body with
    | none =>
      simp [updateEntry, releaseBuffer, updateBuffer, returnArray, held, Budget.release, entry, harray]
    | some a =>
      simp [updateEntry, releaseBuffer, updateBuffer, returnArray, held, Budget.release, entry, harray]

/-- **Releasing.** A release changes the entry it is about and no other one. -/
theorem entry_releaseLocked (c : TtlCache) (e j : ℕ) :
    (c.releaseLocked e).entry j = if j = e then (c.entry e).released else c.entry j := by
  unfold releaseLocked CacheEntry.released
  simp only [entry_updateEntry, if_true]
  by_cases hrefs : (c.entry e).refs - 1 ≠ 0
  · simp only [if_pos hrefs, entry_updateEntry]
  · simp only [if_neg hrefs, entry_closeEntry, entry_updateEntry, if_true]
    by_cases hj : j = e
    · simp [hj]
    · simp [hj]

theorem releaseLocked_frame (c : TtlCache) (e : ℕ) :
    (c.releaseLocked e).head = c.head ∧ (c.releaseLocked e).tail = c.tail ∧
      (c.releaseLocked e).limit = c.limit ∧ (c.releaseLocked e).ttl = c.ttl ∧
      (c.releaseLocked e).entries.size = c.entries.size ∧
      (c.releaseLocked e).budget.limit = c.budget.limit := by
  unfold releaseLocked
  dsimp only
  split
  · exact ⟨rfl, rfl, rfl, rfl, rfl, rfl⟩
  · exact closeEntry_frame (c.updateEntry e _) e

@[simp] theorem released_links (x : CacheEntry) :
    x.released.prev = x.prev ∧ x.released.next = x.next ∧ x.released.retained = x.retained := by
  unfold CacheEntry.released
  split <;> exact ⟨rfl, rfl, rfl⟩

/-! ### Links -/

theorem links_releaseLocked (c : TtlCache) (e : ℕ) : (c.releaseLocked e).links = c.links := by
  obtain ⟨hhead, htail, _⟩ := releaseLocked_frame c e
  have hprev : ∀ j, ((c.releaseLocked e).entry j).prev = (c.entry j).prev := by
    intro j
    rw [entry_releaseLocked]
    by_cases hj : j = e
    · rw [if_pos hj, hj, (released_links _).1]
    · rw [if_neg hj]
  have hnext : ∀ j, ((c.releaseLocked e).entry j).next = (c.entry j).next := by
    intro j
    rw [entry_releaseLocked]
    by_cases hj : j = e
    · rw [if_pos hj, hj, (released_links _).2.1]
    · rw [if_neg hj]
  simp only [links, hprev, hnext, hhead, htail]

@[simp] theorem entry_linkForward (c : TtlCache) (p target : Option ℕ) (j : ℕ) :
    (c.linkForward p target).entry j =
      if p = some j then { c.entry j with next := target } else c.entry j := by
  cases p with
  | none => simp [linkForward, entry]
  | some p =>
    by_cases hj : p = j
    · subst hj
      simp [linkForward]
    · simp [linkForward, hj, Ne.symm hj]

@[simp] theorem entry_linkBack (c : TtlCache) (n target : Option ℕ) (j : ℕ) :
    (c.linkBack n target).entry j =
      if n = some j then { c.entry j with prev := target } else c.entry j := by
  cases n with
  | none => simp [linkBack, entry]
  | some n =>
    by_cases hj : n = j
    · subst hj
      simp [linkBack]
    · simp [linkBack, hj, Ne.symm hj]

@[simp] theorem head_linkForward (c : TtlCache) (p target : Option ℕ) :
    (c.linkForward p target).head = if p = none then target else c.head := by
  cases p <;> simp [linkForward, updateEntry]

@[simp] theorem tail_linkForward (c : TtlCache) (p target : Option ℕ) :
    (c.linkForward p target).tail = c.tail := by
  cases p <;> rfl

@[simp] theorem head_linkBack (c : TtlCache) (n target : Option ℕ) :
    (c.linkBack n target).head = c.head := by
  cases n <;> rfl

@[simp] theorem tail_linkBack (c : TtlCache) (n target : Option ℕ) :
    (c.linkBack n target).tail = if n = none then target else c.tail := by
  cases n <;> simp [linkBack, updateEntry]

/-- What the link writes leave alone. -/
structure SameStore (c c' : TtlCache) : Prop where
  budget : c'.budget = c.budget
  count : c'.count = c.count
  limit : c'.limit = c.limit
  ttl : c'.ttl = c.ttl
  buffers : c'.buffers = c.buffers
  arrays : c'.arrays = c.arrays
  size : c'.entries.size = c.entries.size

theorem SameStore.trans {c₁ c₂ c₃ : TtlCache} (h : SameStore c₁ c₂) (h' : SameStore c₂ c₃) :
    SameStore c₁ c₃ :=
  ⟨h'.budget.trans h.budget, h'.count.trans h.count, h'.limit.trans h.limit, h'.ttl.trans h.ttl,
    h'.buffers.trans h.buffers, h'.arrays.trans h.arrays, h'.size.trans h.size⟩

theorem sameStore_updateEntry (c : TtlCache) (e : ℕ) (f : CacheEntry → CacheEntry) :
    SameStore c (c.updateEntry e f) := ⟨rfl, rfl, rfl, rfl, rfl, rfl, rfl⟩

theorem sameStore_linkForward (c : TtlCache) (p target : Option ℕ) :
    SameStore c (c.linkForward p target) := by
  cases p <;> exact ⟨rfl, rfl, rfl, rfl, rfl, rfl, rfl⟩

theorem sameStore_linkBack (c : TtlCache) (n target : Option ℕ) :
    SameStore c (c.linkBack n target) := by
  cases n <;> exact ⟨rfl, rfl, rfl, rfl, rfl, rfl, rfl⟩

theorem sameStore_unlinkEntry (c : TtlCache) (e : ℕ) : SameStore c (c.unlinkEntry e) :=
  ((sameStore_linkForward c _ _).trans (sameStore_linkBack _ _ _)).trans
    (sameStore_updateEntry _ _ _)

/-- Unlinking changes links, and what is retained. -/
theorem entry_unlinkEntry (c : TtlCache) (e j : ℕ) :
    ∃ p n, (c.unlinkEntry e).entry j =
      { c.entry j with prev := p, next := n,
                       retained := if j = e then false else (c.entry j).retained } := by
  unfold unlinkEntry
  dsimp only
  rw [entry_updateEntry]
  by_cases hj : j = e
  · subst hj
    simp only [if_true, entry_linkBack, entry_linkForward]
    split_ifs <;> exact ⟨_, _, rfl⟩
  · simp only [if_neg hj, entry_linkBack, entry_linkForward]
    split_ifs <;> exact ⟨_, _, rfl⟩

theorem retained_unlinkEntry (c : TtlCache) (e j : ℕ) :
    ((c.unlinkEntry e).entry j).retained = if j = e then false else (c.entry j).retained := by
  obtain ⟨p, n, hentry⟩ := entry_unlinkEntry c e j
  rw [hentry]

theorem links_unlinkEntry (c : TtlCache) (e : ℕ) : (c.unlinkEntry e).links = c.links.unlink e := by
  have hentry : ∀ j, ((c.unlinkEntry e).entry j).prev = (c.links.unlink e).prev j ∧
      ((c.unlinkEntry e).entry j).next = (c.links.unlink e).next j := by
    intro j
    simp only [unlinkEntry, Links.unlink, links, entry_updateEntry]
    by_cases hj : j = e
    · simp [hj]
    · simp only [if_neg hj, entry_linkBack, entry_linkForward]
      by_cases hprev : (c.entry e).prev = some j <;> by_cases hnext : (c.entry e).next = some j <;>
        simp [hprev, hnext]
  have hprev : (fun j => ((c.unlinkEntry e).entry j).prev) = (c.links.unlink e).prev :=
    funext (fun j => (hentry j).1)
  have hnext : (fun j => ((c.unlinkEntry e).entry j).next) = (c.links.unlink e).next :=
    funext (fun j => (hentry j).2)
  have hhead : (c.unlinkEntry e).head = (c.links.unlink e).head := by
    by_cases hnone : (c.entry e).prev = none <;>
      simp [unlinkEntry, updateEntry, Links.unlink, links, hnone]
  have htail : (c.unlinkEntry e).tail = (c.links.unlink e).tail := by
    by_cases hnone : (c.entry e).next = none <;>
      simp [unlinkEntry, updateEntry, Links.unlink, links, hnone]
  rw [links, hprev, hnext, hhead, htail]

/-! ### The list -/

/-- The links spell out `l`, which holds the retained entries. -/
structure Linked (c : TtlCache) (l : List ℕ) : Prop where
  chain : c.links.Chain l
  mem : ∀ e, e ∈ l ↔ e < c.entries.size ∧ (c.entry e).retained = true
  unlinked : ∀ e, e < c.entries.size → (c.entry e).retained = false → (c.entry e).next = none

variable {l : List ℕ}

theorem Linked.congr {c c' : TtlCache} (h : c.Linked l) (hlinks : c'.links = c.links)
    (hretained : ∀ e, (c'.entry e).retained = (c.entry e).retained)
    (hsize : c'.entries.size = c.entries.size) : c'.Linked l := by
  have hnext : ∀ e, (c'.entry e).next = (c.entry e).next := fun e =>
    congrFun (congrArg Links.next hlinks) e
  refine ⟨hlinks ▸ h.chain, ?_, ?_⟩
  · intro e
    rw [h.mem, hsize, hretained]
  · intro e he hret
    rw [hnext, h.unlinked e (hsize ▸ he) (hretained e ▸ hret)]

theorem Linked.unlinkEntry {before after : List ℕ} (h : c.Linked (before ++ e :: after)) :
    (c.unlinkEntry e).Linked (before ++ after) := by
  have hsize := (sameStore_unlinkEntry c e).size
  have hretained := retained_unlinkEntry c e
  have hchain : (c.unlinkEntry e).links.Chain (before ++ after) := by
    rw [links_unlinkEntry]
    exact h.chain.unlink
  have hnot : e ∉ before ++ after := (List.nodup_cons.1 (List.nodup_middle.1 h.chain.nodup)).1
  refine ⟨hchain, ?_, ?_⟩
  · intro j
    rw [hsize, hretained]
    by_cases hj : j = e
    · rw [if_pos hj, hj]
      simp only [Bool.false_eq_true, and_false, iff_false]
      exact hnot
    · rw [if_neg hj, ← h.mem]
      simp [hj]
  · intro j hj hret
    have hnext : ((c.unlinkEntry e).entry j).next = (c.links.unlink e).next j :=
      congrFun (congrArg Links.next (links_unlinkEntry c e)) j
    rw [hnext]
    simp only [Links.unlink]
    by_cases hje : j = e
    · rw [if_pos hje]
    · rw [if_neg hje]
      rw [hretained, if_neg hje] at hret
      -- the predecessor of `e` is retained
      have hprev : c.links.prev e ≠ some j := by
        intro hprev
        rw [(h.chain.between before e after rfl).1] at hprev
        have hmem : j ∈ before ++ e :: after :=
          List.mem_append_left _ (List.mem_of_getLast? hprev)
        rw [((h.mem j).1 hmem).2] at hret
        cases hret
      rw [if_neg hprev]
      exact h.unlinked j (hsize ▸ hj) hret

/-- **Retiring.** A retired entry leaves the list. -/
theorem Linked.retireLocked {before after : List ℕ} (h : c.Linked (before ++ e :: after)) :
    (c.retireLocked e).Linked (before ++ after) := by
  refine h.unlinkEntry.congr (links_releaseLocked _ e) ?_ (releaseLocked_frame _ e).2.2.2.2.1
  intro j
  rw [TtlCache.retireLocked, entry_releaseLocked]
  by_cases hj : j = e
  · rw [if_pos hj, hj, (released_links _).2.2]
  · rw [if_neg hj]

/-- Retiring an entry changes the data of no other one. -/
theorem data_retireLocked (c : TtlCache) (e : ℕ) {j : ℕ} (hj : j ≠ e) :
    ((c.retireLocked e).entry j).data = (c.entry j).data := by
  obtain ⟨p, n, hentry⟩ := entry_unlinkEntry c e j
  rw [retireLocked, entry_releaseLocked, if_neg hj, hentry, if_neg hj]
  rfl

theorem retireLocked_frame (c : TtlCache) (e : ℕ) :
    (c.retireLocked e).limit = c.limit ∧ (c.retireLocked e).ttl = c.ttl ∧
      (c.retireLocked e).entries.size = c.entries.size ∧
      (c.retireLocked e).budget.limit = c.budget.limit := by
  obtain ⟨_, _, hlimit, httl, hsize, hbudget⟩ := releaseLocked_frame (c.unlinkEntry e) e
  have hsame := sameStore_unlinkEntry c e
  exact ⟨hlimit.trans hsame.limit, httl.trans hsame.ttl, hsize.trans hsame.size,
    hbudget.trans (by rw [hsame.budget])⟩

/-! ### The loops -/

/-- What retiring an entry of the list preserves, a loop of retirements preserves. -/
theorem retireWhere_preserves {P : TtlCache → Prop} (p : CacheEntry → Bool)
    (hstep : ∀ c l e, Linked c l → e ∈ l → P c → P (c.retireLocked e)) (fuel : ℕ) {c : TtlCache}
    (hl : c.Linked l) {cursor : Option ℕ} (hcursor : ∀ e, cursor = some e → e ∈ l) (hP : P c) :
    P (retireWhere p fuel cursor c) := by
  induction fuel generalizing c l cursor with
  | zero => exact hP
  | succ fuel ih =>
    cases cursor with
    | none => exact hP
    | some e =>
      have he := hcursor e rfl
      have hnext : ∀ n, (c.entry e).next = some n → n ∈ l ∧ n ≠ e := fun n hn =>
        hl.chain.next_mem he hn
      rw [retireWhere]
      by_cases hp : p (c.entry e) = true
      · rw [if_pos hp]
        obtain ⟨before, after, rfl⟩ := List.append_of_mem he
        refine ih hl.retireLocked ?_ (hstep c _ e hl he hP)
        intro n hn
        obtain ⟨hmem, hne⟩ := hnext n hn
        simpa [hne] using hmem
      · rw [if_neg hp]
        exact ih hl (fun n hn => (hnext n hn).1) hP

theorem evict_preserves {P : TtlCache → Prop}
    (hstep : ∀ c l e, Linked c l → e ∈ l → P c → P (c.retireLocked e)) (fuel : ℕ) {c : TtlCache}
    (hl : c.Linked l) (hP : P c) : P (evict fuel c) := by
  induction fuel generalizing c l with
  | zero => exact hP
  | succ fuel ih =>
    rw [evict]
    split
    · exact hP
    · rename_i e hhead
      have he := hl.chain.head_mem hhead
      split
      · obtain ⟨before, after, rfl⟩ := List.append_of_mem he
        exact ih hl.retireLocked (hstep c _ e hl he hP)
      · exact hP

/-- A loop of retirements leaves entries outside the list, and the sizes, alone. -/
theorem retireWhere_frame (p : CacheEntry → Bool) (fuel : ℕ) (hl : c.Linked l)
    (he : (c.entry e).retained = false) :
    ((retireWhere p fuel c.head c).entry e).data = (c.entry e).data ∧
      (retireWhere p fuel c.head c).entries.size = c.entries.size := by
  have hkeep := retireWhere_preserves
    (P := fun d => (d.entry e).data = (c.entry e).data ∧ d.entries.size = c.entries.size) p ?_ fuel hl
    (fun j hj => hl.chain.head_mem hj) ⟨rfl, rfl⟩
  · exact hkeep
  · rintro d l' j hl' hj ⟨hdata, hsize⟩
    have hne : e ≠ j := by
      rintro rfl
      have hret := CacheEntry.eq_of_data CacheEntry.retained (fun _ => rfl) hdata
      rw [((hl'.mem e).1 hj).2, he] at hret
      cases hret
    exact ⟨(data_retireLocked d j hne).trans hdata, (retireLocked_frame d j).2.2.1.trans hsize⟩

/-! ### Counts -/

/-- Retiring never raises the count. -/
theorem count_retireLocked_le (c : TtlCache) (e : ℕ) : (c.retireLocked e).count ≤ c.count := by
  rw [← (sameStore_unlinkEntry c e).count]
  unfold retireLocked releaseLocked
  dsimp only
  split
  · exact le_refl _
  · rw [(closeEntry_returns _ e).2.2.1]
    exact Int.sub_le_self _ (by decide)

/-! ### Lookup -/

/-- **Lookup.** What is found is in the list, under the key, and matches the request. -/
theorem getFrom_some {key : Key} {headers : Header} {policy : Option ProxyPolicy}
    {latched : ℕ → Bool} (hl : c.Linked l) {fuel : ℕ} {cursor : Option ℕ}
    (hcursor : ∀ j, cursor = some j → j ∈ l)
    (h : c.getFrom key headers policy latched fuel cursor = some e) :
    e ∈ l ∧ (c.entry e).key = key ∧ varyMatches (c.entry e).vary headers = true := by
  induction fuel generalizing cursor with
  | zero => cases h
  | succ fuel ih =>
    cases cursor with
    | none => cases h
    | some j =>
      rw [getFrom] at h
      split at h
      · rename_i hmatch
        rw [← Option.some.inj h]
        exact ⟨hcursor j rfl, hmatch.1, hmatch.2.2⟩
      · exact ih (fun n hn => (hl.chain.next_mem (hcursor j rfl) hn).1) h

theorem get_some {key : Key} {headers : Header} {policy : Option ProxyPolicy} {latch : Bool}
    {latched : ℕ → Bool} (hl : c.Linked l) (h : c.get key headers policy latch latched = some e) :
    e ∈ l ∧ (c.entry e).key = key ∧ varyMatches (c.entry e).vary headers = true := by
  obtain ⟨_, h⟩ := Option.ite_none_left_eq_some.1 h
  exact getFrom_some hl (fun j hj => hl.chain.head_mem hj) h

end TtlCache

end Statute.Cache
