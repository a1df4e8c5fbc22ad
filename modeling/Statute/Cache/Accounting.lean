import Statute.Cache.Handler
import Statute.Cache.Retained

/-!
# Accounting of the cache

What the budget has handed out, and who will give it back.  The invariant `Accounts` has four parts:
the retained list is well linked; references are counted (`Counted`); every array behind a body has
one holder until it is returned, and none afterwards (`Owned`); and the budget is the sum of what is
live (`Balanced`).

A release happens in two moves, giving up a reference and then settling the entry, so the invariant
carries the reference that is owed in between.
-/

namespace Statute.Cache

open Statute.Base

/-! ### What counts -/

namespace CacheEntry

/-- One for an entry with references. -/
def live (x : CacheEntry) : ℤ := if 0 < x.refs then 1 else 0

def liveCharge (x : CacheEntry) : ℤ := if 0 < x.refs then x.charge else 0

end CacheEntry

def BodyArray.liveCapacity (a : BodyArray) : ℤ := if a.returns = 0 then a.capacity else 0

namespace Request

/-- One for a request that began and has not ended. -/
def active (r : Request) : ℤ := if r.phase = .waiting ∨ r.phase = .done then 0 else 1

/-- How often a request references an entry. -/
def holds (e : ℕ) (r : Request) : ℤ :=
  (if r.lease = some e then 1 else 0) + (if r.candidate = some e then 1 else 0)

/-- One for a request whose body grows into the array. -/
def grows (a : ℕ) (r : Request) : ℤ :=
  match r.phase with
  | .growing _ b => if b = a then 1 else 0
  | _ => 0

theorem holds_nonneg (e : ℕ) (r : Request) : 0 ≤ r.holds e := by
  unfold holds
  split_ifs <;> omega

theorem grows_nonneg (a : ℕ) (r : Request) : 0 ≤ r.grows a := by
  unfold grows
  split
  · split_ifs <;> omega
  · omega

theorem active_nonneg (r : Request) : 0 ≤ r.active := by
  unfold active
  split_ifs <;> omega

end Request

namespace TtlCache

/-- One for an entry with references whose body is in the array. -/
def bodyHolds (c : TtlCache) (a : ℕ) (x : CacheEntry) : ℤ :=
  if 0 < x.refs ∧ c.bodyOf x = some a then 1 else 0

theorem bodyHolds_nonneg (c : TtlCache) (a : ℕ) (x : CacheEntry) : 0 ≤ c.bodyHolds a x := by
  unfold bodyHolds
  split_ifs <;> omega

theorem bodyHolds_congr {c c' : TtlCache} {a : ℕ} {x y : CacheEntry} (hlive : 0 < y.refs ↔ 0 < x.refs)
    (hbody : c'.bodyOf y = c.bodyOf x) : c'.bodyHolds a y = c.bodyHolds a x := by
  simp only [bodyHolds, hlive, hbody]

def Owns (c : TtlCache) (e b : ℕ) : Prop := b < c.buffers.size ∧ (c.buffer b).entry = e

/-- The entry was never published, and the buffer is its body so far. -/
structure Drafting (c : TtlCache) (e b : ℕ) : Prop where
  unpublished : (c.entry e).published = false
  buf : (c.entry e).buf = some b
  owns : c.Owns e b

end TtlCache

/-- What a request has of its candidate, phase by phase. -/
def Draft (c : TtlCache) (r : Request) : Prop :=
  match r.phase with
  | .waiting | .begun | .done => r.lease = none ∧ r.candidate = none
  | .looked | .missed | .admitting => r.candidate = none
  | .admitted =>
    ∃ e, r.candidate = some e ∧ (c.entry e).published = false ∧ (c.entry e).buf = none
  | .producing | .growing _ _ => ∃ e, r.candidate = some e ∧ c.Drafting e r.writer.buf
  | .delivering b _ =>
    ∃ e, r.candidate = some e ∧ c.Drafting e r.writer.buf ∧ c.Owns e b ∧
      (c.buffer b).body = (c.buffer r.writer.buf).body
  | .checking b _ => ∃ e, r.candidate = some e ∧ c.Drafting e b
  | .publishing b _ charge => ∃ e, r.candidate = some e ∧ c.Drafting e b ∧ 0 ≤ charge
  | .closing => True

/-! ### The invariant -/

/-- References are counted: those of requests, that of the list, and the one owed. -/
structure Counted (owed : Option ℕ) (c : TtlCache) (rs : Heap Request) : Prop where
  count : c.count = c.entries.total CacheEntry.live
  count_le : c.count ≤ c.limit
  refs : ∀ e, e < c.entries.size → (c.entry e).refs = rs.total (Request.holds e) +
    (if (c.entry e).retained = true then 1 else 0) + (if owed = some e then 1 else 0)
  once : ∀ e, e < c.entries.size → ((c.entry e).returns : ℤ) + (c.entry e).live = 1
  known : ∀ i, i < rs.size → ∀ e,
    (rs.cell i).lease = some e ∨ (rs.cell i).candidate = some e → e < c.entries.size
  alone : ∀ i, i < rs.size → ∀ j, j < rs.size → ∀ e, (rs.cell i).candidate = some e →
    (rs.cell j).candidate = some e → i = j
  published : ∀ e, e < c.entries.size → (c.entry e).retained = true → (c.entry e).published = true

/-- Every array has one holder, an entry or a growing body, until it is returned. -/
structure Owned (c : TtlCache) (rs : Heap Request) : Prop where
  arrays : ∀ a, a < c.arrays.size → ((c.arrays.cell a).returns : ℤ) +
    c.entries.total (c.bodyHolds a) + rs.total (Request.grows a) = 1
  bodies : ∀ b, b < c.buffers.size → ∀ a, (c.buffer b).body = some a → a < c.arrays.size
  growths : ∀ i, i < rs.size → ∀ n a, (rs.cell i).phase = .growing n a → a < c.arrays.size
  bufs : ∀ e, e < c.entries.size → ∀ b, (c.entry e).buf = some b → c.Owns e b
  drafts : ∀ i, i < rs.size → Draft c (rs.cell i)

/-- The budget is the sum of what is live. -/
structure Balanced (c : TtlCache) (rs : Heap Request) : Prop where
  used : c.budget.used = cacheScratchBytes * rs.total Request.active +
    c.entries.total CacheEntry.liveCharge + c.arrays.total BodyArray.liveCapacity
  used_le : c.budget.used ≤ c.budget.limit
  charges : ∀ e, e < c.entries.size → 0 ≤ (c.entry e).charge
  capacities : ∀ a, a < c.arrays.size → 0 ≤ (c.arrays.cell a).capacity

structure Accounts (owed : Option ℕ) (c : TtlCache) (rs : Heap Request) : Prop where
  linked : ∃ l, c.Linked l
  counted : Counted owed c rs
  owned : Owned c rs
  balanced : Balanced c rs

/-! ### Caches that agree on what counts -/

/-- Two versions of an entry that agree on what `Owned` and `Balanced` read. -/
structure SameEntry (x y : CacheEntry) : Prop where
  live : 0 < y.refs ↔ 0 < x.refs
  buf : y.buf = x.buf
  charge : y.charge = x.charge
  returns : y.returns = x.returns

theorem SameEntry.refl (x : CacheEntry) : SameEntry x x := ⟨Iff.rfl, rfl, rfl, rfl⟩

theorem SameEntry.liveCharge {x y : CacheEntry} (h : SameEntry x y) : y.liveCharge = x.liveCharge := by
  simp only [CacheEntry.liveCharge, h.live, h.charge]

/-- A draft depends on the candidate's entry and on the buffers made for it. -/
theorem Draft.congr {c c' : TtlCache} {r : Request} (h : Draft c r)
    (hentry : ∀ e, r.candidate = some e → (c'.entry e).published = (c.entry e).published ∧
      (c'.entry e).buf = (c.entry e).buf)
    (hbuffer : ∀ e, r.candidate = some e → ∀ b, c.Owns e b →
      c'.Owns e b ∧ (c'.buffer b).body = (c.buffer b).body) : Draft c' r := by
  have hdrafting : ∀ e b, r.candidate = some e → c.Drafting e b → c'.Drafting e b := by
    intro e b he hd
    obtain ⟨hpub, hbuf⟩ := hentry e he
    exact ⟨hpub.trans hd.unpublished, hbuf.trans hd.buf, (hbuffer e he b hd.owns).1⟩
  unfold Draft at h ⊢
  split at h
  · exact h
  · exact h
  · exact h
  · exact h
  · exact h
  · exact h
  · obtain ⟨e, he, hpub, hbuf⟩ := h
    obtain ⟨hpub', hbuf'⟩ := hentry e he
    exact ⟨e, he, hpub'.trans hpub, hbuf'.trans hbuf⟩
  · obtain ⟨e, he, hd⟩ := h
    exact ⟨e, he, hdrafting e _ he hd⟩
  · obtain ⟨e, he, hd⟩ := h
    exact ⟨e, he, hdrafting e _ he hd⟩
  · obtain ⟨e, he, hd, hown, hbody⟩ := h
    refine ⟨e, he, hdrafting e _ he hd, (hbuffer e he _ hown).1, ?_⟩
    rw [(hbuffer e he _ hown).2, (hbuffer e he _ hd.owns).2, hbody]
  · obtain ⟨e, he, hd⟩ := h
    exact ⟨e, he, hdrafting e _ he hd⟩
  · obtain ⟨e, he, hd, hcharge⟩ := h
    exact ⟨e, he, hdrafting e _ he hd, hcharge⟩
  · exact h

section Frames

variable {c c' : TtlCache} {rs : Heap Request}

/-- The part of the books that entries, buffers and arrays decide is unchanged when these agree on
what counts. -/
theorem Owned.congr (h : Owned c rs) (hentry : ∀ e, SameEntry (c.entry e) (c'.entry e))
    (hpublished : ∀ i, i < rs.size → (rs.cell i).phase = .closing ∨ ∀ e, (rs.cell i).candidate = some e →
      (c'.entry e).published = (c.entry e).published)
    (hsize : c'.entries.size = c.entries.size) (hbuffers : c'.buffers = c.buffers)
    (harrays : c'.arrays = c.arrays) : Owned c' rs := by
  have hbuffer : ∀ b, c'.buffer b = c.buffer b := fun b => by
    rw [TtlCache.buffer, TtlCache.buffer, hbuffers]
  have howns : ∀ e b, c'.Owns e b ↔ c.Owns e b := fun e b => by
    rw [TtlCache.Owns, TtlCache.Owns, hbuffers, hbuffer]
  refine ⟨?_, ?_, ?_, ?_, ?_⟩
  · intro a ha
    have htotal : c'.entries.total (c'.bodyHolds a) = c.entries.total (c.bodyHolds a) := by
      apply Heap.total_congr hsize
      intro e _
      apply TtlCache.bodyHolds_congr (hentry e).live
      rw [TtlCache.bodyOf, TtlCache.bodyOf, (hentry e).buf]
      simp only [hbuffer]
    rw [harrays, htotal]
    exact h.arrays a (harrays ▸ ha)
  · intro b hb a hbody
    rw [harrays]
    exact h.bodies b (hbuffers ▸ hb) a (hbuffer b ▸ hbody)
  · intro i hi n a hphase
    rw [harrays]
    exact h.growths i hi n a hphase
  · intro e he b hbuf
    rw [howns]
    exact h.bufs e (hsize ▸ he) b ((hentry e).buf ▸ hbuf)
  · intro i hi
    rcases hpublished i hi with hclosing | hpublished
    · rw [Draft, hclosing]
      trivial
    · refine (h.drafts i hi).congr (fun e he => ⟨hpublished e he, (hentry e).buf⟩) ?_
      intro e _ b hb
      exact ⟨(howns e b).2 hb, by rw [hbuffer]⟩

theorem Balanced.congr (h : Balanced c rs) (hentry : ∀ e, SameEntry (c.entry e) (c'.entry e))
    (hsize : c'.entries.size = c.entries.size) (hbudget : c'.budget = c.budget)
    (harrays : c'.arrays = c.arrays) : Balanced c' rs := by
  refine ⟨?_, ?_, ?_, ?_⟩
  · have htotal : c'.entries.total CacheEntry.liveCharge = c.entries.total CacheEntry.liveCharge :=
      Heap.total_congr hsize (fun e _ => (hentry e).liveCharge)
    rw [hbudget, harrays, htotal]
    exact h.used
  · rw [hbudget]
    exact h.used_le
  · intro e he
    rw [(hentry e).charge]
    exact h.charges e (hsize ▸ he)
  · rw [harrays]
    exact h.capacities

/-- The references to an entry that are neither the one of the list nor owed. -/
def CacheEntry.byRequests (owed : Option ℕ) (e : ℕ) (x : CacheEntry) : ℤ :=
  x.refs - (if x.retained = true then 1 else 0) - (if owed = some e then 1 else 0)

variable {owed owed' : Option ℕ}

/-- The counts survive a change of references, of the list and of what is owed that balance for every
entry and close none. -/
theorem Counted.recount (h : Counted owed c rs)
    (hsize : c'.entries.size = c.entries.size) (hcount : c'.count = c.count) (hlimit : c'.limit = c.limit)
    (hentry : ∀ e, (0 < (c'.entry e).refs ↔ 0 < (c.entry e).refs) ∧
      (c'.entry e).returns = (c.entry e).returns)
    (hrefs : ∀ e, (c'.entry e).byRequests owed' e = (c.entry e).byRequests owed e)
    (hretained : ∀ e, e < c.entries.size → (c'.entry e).retained = true → (c'.entry e).published = true) :
    Counted owed' c' rs := by
  have hlive : ∀ e, (c'.entry e).live = (c.entry e).live := by
    intro e
    simp only [CacheEntry.live, (hentry e).1]
  refine ⟨?_, ?_, ?_, ?_, ?_, h.alone, ?_⟩
  · rw [hcount, h.count]
    exact (Heap.total_congr hsize (fun e _ => hlive e)).symm
  · rw [hcount, hlimit]
    exact h.count_le
  · intro e he
    have hbefore := h.refs e (hsize ▸ he)
    have hafter := hrefs e
    unfold CacheEntry.byRequests at hafter
    omega
  · intro e he
    rw [(hentry e).2, hlive]
    exact h.once e (hsize ▸ he)
  · intro i hi e hold
    rw [hsize]
    exact h.known i hi e hold
  · intro e he
    exact hretained e (hsize ▸ he)

/-- **References.** So do the books. -/
theorem Accounts.relink {l : List ℕ} (h : Accounts owed c rs)
    (hsame : c.SameStore c') (hl : c'.Linked l) (hentry : ∀ e, SameEntry (c.entry e) (c'.entry e))
    (hrefs : ∀ e, (c'.entry e).byRequests owed' e = (c.entry e).byRequests owed e)
    (hretained : ∀ e, e < c.entries.size → (c'.entry e).retained = true → (c'.entry e).published = true)
    (hpublished : ∀ i, i < rs.size → (rs.cell i).phase = .closing ∨ ∀ e, (rs.cell i).candidate = some e →
      (c'.entry e).published = (c.entry e).published) : Accounts owed' c' rs :=
  ⟨⟨l, hl⟩, h.counted.recount hsame.size hsame.count hsame.limit
      (fun e => ⟨(hentry e).live, (hentry e).returns⟩) hrefs hretained,
    h.owned.congr hentry hpublished hsame.size hsame.buffers hsame.arrays,
    h.balanced.congr hentry hsame.size hsame.budget hsame.arrays⟩

/-- Unlinking a retained entry leaves its reference owed. -/
theorem Accounts.unlinkEntry {l : List ℕ} {e : ℕ} (h : Accounts none c rs) (hl : c.Linked l)
    (he : e ∈ l) : Accounts (some e) (c.unlinkEntry e) rs := by
  obtain ⟨_, hret⟩ := (hl.mem e).1 he
  obtain ⟨before, after, rfl⟩ := List.append_of_mem he
  have hentry := TtlCache.entry_unlinkEntry c e
  refine h.relink (TtlCache.sameStore_unlinkEntry c e) hl.unlinkEntry ?_ ?_ ?_ ?_
  · intro j
    obtain ⟨p, n, hj⟩ := hentry j
    rw [hj]
    exact ⟨Iff.rfl, rfl, rfl, rfl⟩
  · intro j
    obtain ⟨p, n, hj⟩ := hentry j
    rw [hj]
    by_cases hje : j = e
    · simp [CacheEntry.byRequests, hje, hret]
    · simp [CacheEntry.byRequests, hje, Ne.symm hje]
  · intro j hj hretained
    obtain ⟨p, n, hj'⟩ := hentry j
    rw [hj'] at hretained ⊢
    refine h.counted.published j hj ?_
    by_contra hnot
    simp [hnot] at hretained
  · refine fun i _ => Or.inr (fun j _ => ?_)
    obtain ⟨p, n, hj⟩ := hentry j
    rw [hj]

/-- References to a live entry that leave it live, and what is owed for them. -/
theorem Accounts.addRefs {e : ℕ} (h : Accounts owed c rs) (k : ℤ)
    (hlive : 0 < (c.entry e).refs + k ↔ 0 < (c.entry e).refs)
    (howed : ∀ j, (if owed' = some j then (1 : ℤ) else 0) =
      (if owed = some j then 1 else 0) + (if j = e then k else 0)) :
    Accounts owed' (c.updateEntry e (fun x => { x with refs := x.refs + k })) rs := by
  obtain ⟨l, hl⟩ := h.linked
  have hentry : ∀ j, (c.updateEntry e (fun x => { x with refs := x.refs + k })).entry j =
      { c.entry j with refs := (c.entry j).refs + (if j = e then k else 0) } := by
    intro j
    rw [TtlCache.entry_updateEntry]
    split
    · rename_i hj
      rw [hj]
    · rw [add_zero]
  refine h.relink (TtlCache.sameStore_updateEntry c e _) (hl.congr ?_ ?_ rfl) ?_ ?_ ?_ ?_
  · simp only [TtlCache.links, hentry]
    rfl
  · intro j
    rw [hentry]
  · intro j
    rw [hentry]
    refine ⟨?_, rfl, rfl, rfl⟩
    dsimp only
    split
    · rename_i hj
      exact hj ▸ hlive
    · rw [add_zero]
  · intro j
    have := howed j
    rw [hentry]
    simp only [CacheEntry.byRequests]
    omega
  · intro j hj hret
    rw [hentry] at hret ⊢
    exact h.counted.published j hj hret
  · refine fun i _ => Or.inr (fun j _ => ?_)
    rw [hentry]

/-! ### Releasing a reference -/

variable {i : ℕ}

/-- An entry that a request holds has references. -/
theorem Counted.refs_pos (h : Counted owed c rs) {e : ℕ} (hi : i < rs.size)
    (hold : (rs.cell i).lease = some e ∨ (rs.cell i).candidate = some e) :
    0 < (c.entry e).refs := by
  have hone : 1 ≤ (rs.cell i).holds e := by
    unfold Request.holds
    rcases hold with hold | hold
    · rw [if_pos hold]
      split_ifs <;> omega
    · rw [if_pos hold]
      split_ifs <;> omega
  have htotal := Heap.le_total (f := Request.holds e) (fun j _ => Request.holds_nonneg e _) hi
  rw [h.refs e (h.known i hi e hold)]
  split_ifs <;> omega

theorem Owned.bodyOf_lt (h : Owned c rs) {e a : ℕ} (he : e < c.entries.size)
    (hbody : c.bodyOf (c.entry e) = some a) : a < c.arrays.size := by
  obtain ⟨b, hbuf, hbody⟩ := Option.bind_eq_some_iff.1 hbody
  exact h.bodies b (h.bufs e he b hbuf).1 a hbody

/-- The body of an entry with references was not returned, and nobody else holds it. -/
theorem Owned.holder (h : Owned c rs) {e a : ℕ} (he : e < c.entries.size) (hlive : 0 < (c.entry e).refs)
    (hbody : c.bodyOf (c.entry e) = some a) :
    (c.arrays.cell a).returns = 0 ∧ rs.total (Request.grows a) = 0 := by
  have hsum := h.arrays a (h.bodyOf_lt he hbody)
  have hgrows : 0 ≤ rs.total (Request.grows a) :=
    Heap.total_nonneg (fun i _ => Request.grows_nonneg a _)
  have hone : c.bodyHolds a (c.entry e) = 1 := by
    rw [TtlCache.bodyHolds, if_pos ⟨hlive, hbody⟩]
  have hle := Heap.le_total (f := c.bodyHolds a) (fun j _ => c.bodyHolds_nonneg a _) he
  rw [← TtlCache.entry, hone] at hle
  omega

/-- Buffers of other entries are not the buffer of `e`. -/
theorem Owned.buf_ne (h : Owned c rs) {e j b : ℕ} (he : e < c.entries.size) (hj : j ≠ e)
    (hown : c.Owns j b) : (c.entry e).buf ≠ some b := by
  intro hbuf
  exact hj (hown.2.symm.trans (h.bufs e he b hbuf).2)

/-- The total of live capacities after an array was returned. -/
theorem total_liveCapacity_returnArray {a : Option ℕ}
    (ha : ∀ j, a = some j → j < c.arrays.size ∧ (c.arrays.cell j).returns = 0) :
    (c.returnArray a).arrays.total BodyArray.liveCapacity =
      c.arrays.total BodyArray.liveCapacity - c.held a := by
  cases a with
  | none => simp [TtlCache.returnArray, TtlCache.held]
  | some a =>
    obtain ⟨hsize, hzero⟩ := ha a rfl
    simp [TtlCache.returnArray, Heap.total_modify hsize, TtlCache.held, BodyArray.liveCapacity, hzero]

section Close

variable {e : ℕ}

/-- What the last release of an entry does. -/
structure LastRelease (c : TtlCache) (e : ℕ) (d : TtlCache) : Prop where
  size : d.entries.size = c.entries.size
  limit : d.limit = c.limit ∧ d.budget.limit = c.budget.limit
  count : d.count = c.count - 1
  entry : ∀ j, d.entry j = if j = e then
    { c.entry e with refs := 0, buf := none, vary := [], key := {}, returns := (c.entry e).returns + 1 }
    else c.entry j
  buffers : d.buffers.size = c.buffers.size
  buffer : ∀ b, d.buffer b =
    if (c.entry e).buf = some b then { c.buffer b with body := none, length := 0 } else c.buffer b
  arrays : d.arrays = (c.returnArray (c.bodyOf (c.entry e))).arrays
  used : d.budget.used = c.budget.used - c.held (c.bodyOf (c.entry e)) - (c.entry e).charge

theorem lastRelease (h : (c.entry e).refs - 1 = 0) : LastRelease c e (c.releaseLocked e) := by
  obtain ⟨_, _, hlimit, _, hsize, hbudget⟩ := TtlCache.releaseLocked_frame c e
  have hentry := TtlCache.entry_releaseLocked c e
  unfold CacheEntry.released at hentry
  rw [if_neg (not_not.2 h), h] at hentry
  obtain ⟨harrays, hused, hcount, hbuffers⟩ :=
    TtlCache.closeEntry_returns (c.updateEntry e (fun x => { x with refs := x.refs - 1 })) e
  have hbuffer := TtlCache.buffer_closeEntry
    (c.updateEntry e (fun x => { x with refs := x.refs - 1 })) e
  simp only [TtlCache.entry_updateEntry, if_true] at harrays hused hbuffer
  have hlast : c.releaseLocked e =
      (c.updateEntry e (fun x => { x with refs := x.refs - 1 })).closeEntry e := by
    unfold TtlCache.releaseLocked
    simp [h]
  refine ⟨hsize, ⟨hlimit, hbudget⟩, hlast ▸ hcount, hentry, hlast ▸ hbuffers, hlast ▸ hbuffer, ?_,
    hlast ▸ hused⟩
  rw [hlast, harrays]
  have hbody : (c.updateEntry e (fun x => { x with refs := x.refs - 1 })).bodyOf
      { c.entry e with refs := (c.entry e).refs - 1 } = c.bodyOf (c.entry e) := rfl
  rw [hbody]
  cases c.bodyOf (c.entry e) <;> rfl

variable {d : TtlCache}

theorem Counted.releaseLast (h : Counted (some e) c rs) (he : e < c.entries.size)
    (hlast : (c.entry e).refs = 1) (hd : LastRelease c e d) : Counted none d rs := by
  have hlive : (c.entry e).live = 1 := by
    rw [CacheEntry.live, if_pos (by omega)]
  have hgone := hd.entry e
  rw [if_pos rfl] at hgone
  have hlive' : (d.entry e).live = 0 := by
    rw [hgone, CacheEntry.live]
    rfl
  refine ⟨?_, ?_, ?_, ?_, ?_, h.alone, ?_⟩
  · have hchange := Heap.total_change (k := d.entries) (f := CacheEntry.live) (g := CacheEntry.live) he
      hd.size (fun j _ hj => congrArg CacheEntry.live ((hd.entry j).trans (if_neg hj)))
    rw [hd.count, hchange, h.count]
    rw [TtlCache.entry] at hlive hlive'
    omega
  · have hbefore := h.count_le
    rw [hd.count, hd.limit.1]
    omega
  · intro j hj
    rw [hd.entry]
    have hbefore := h.refs j (hd.size ▸ hj)
    by_cases hje : j = e
    · subst hje
      rw [hlast, if_pos rfl] at hbefore
      simp only [if_true, reduceCtorEq, if_false]
      omega
    · simp only [if_neg hje, Option.some.injEq, Ne.symm hje, if_false] at hbefore ⊢
      simpa using hbefore
  · intro j hj
    by_cases hje : j = e
    · have honce := h.once e he
      rw [hje, hlive', hgone]
      push_cast
      omega
    · rw [hd.entry, if_neg hje]
      exact h.once j (hd.size ▸ hj)
  · intro i hi j hj
    rw [hd.size]
    exact h.known i hi j hj
  · intro j hj
    rw [hd.entry]
    split
    · exact h.published e he
    · exact h.published j (hd.size ▸ hj)

theorem Owned.releaseLast (h : Owned c rs) (hc : Counted (some e) c rs) (he : e < c.entries.size)
    (hlast : (c.entry e).refs = 1) (hd : LastRelease c e d) : Owned d rs := by
  -- the owed reference was the only one, so that no request has the entry as its candidate
  have hcandidate : ∀ i, i < rs.size → ∀ j, (rs.cell i).candidate = some j → j ≠ e := by
    rintro i hi j hcand rfl
    have hrefs := hc.refs j he
    have hone : 1 ≤ (rs.cell i).holds j := by
      unfold Request.holds
      rw [if_pos hcand]
      split_ifs <;> omega
    have htotal := Heap.le_total (f := Request.holds j) (fun k _ => Request.holds_nonneg j _) hi
    rw [if_pos rfl] at hrefs
    split_ifs at hrefs <;> omega
  have howns : ∀ j b, c.Owns j b → d.Owns j b := by
    intro j b hown
    refine ⟨hd.buffers ▸ hown.1, ?_⟩
    rw [hd.buffer]
    split_ifs
    · exact hown.2
    · exact hown.2
  have hbodyOf : ∀ j, j < c.entries.size → j ≠ e → d.bodyOf (d.entry j) = c.bodyOf (c.entry j) := by
    intro j hj hje
    rw [hd.entry, if_neg hje, TtlCache.bodyOf, TtlCache.bodyOf]
    cases hbuf : (c.entry j).buf with
    | none => rfl
    | some b =>
      have hne := h.buf_ne he hje (h.bufs j hj b hbuf)
      simp only [Option.bind_some, hd.buffer, if_neg hne]
  refine ⟨?_, ?_, ?_, ?_, ?_⟩
  · intro a ha
    rw [hd.arrays, TtlCache.size_arrays_returnArray] at ha
    have hsum := h.arrays a ha
    have hchange := Heap.total_change (k := d.entries) (f := c.bodyHolds a) (g := d.bodyHolds a) he
      hd.size (fun j hj hje => by
        refine TtlCache.bodyHolds_congr ?_ (hbodyOf j hj hje)
        rw [← TtlCache.entry, hd.entry, if_neg hje]
        rfl)
    have hafter : d.bodyHolds a (d.entries.cell e) = 0 := by
      rw [← TtlCache.entry, hd.entry, if_pos rfl, TtlCache.bodyHolds, if_neg]
      simp
    have hbefore : c.bodyHolds a (c.entries.cell e) =
        if c.bodyOf (c.entry e) = some a then 1 else 0 := by
      rw [← TtlCache.entry, TtlCache.bodyHolds]
      simp [hlast]
    rw [hchange, hafter, hbefore, hd.arrays, TtlCache.array_returnArray]
    split_ifs
    · push_cast
      omega
    · omega
  · intro b hb a hbody
    rw [hd.arrays, TtlCache.size_arrays_returnArray]
    rw [hd.buffer] at hbody
    split_ifs at hbody
    exact h.bodies b (hd.buffers ▸ hb) a hbody
  · intro i hi n a hphase
    rw [hd.arrays, TtlCache.size_arrays_returnArray]
    exact h.growths i hi n a hphase
  · intro j hj b hbuf
    rw [hd.entry] at hbuf
    by_cases hje : j = e
    · rw [if_pos hje] at hbuf
      cases hbuf
    · rw [if_neg hje] at hbuf
      exact howns j b (h.bufs j (hd.size ▸ hj) b hbuf)
  · intro i hi
    refine (h.drafts i hi).congr ?_ ?_
    · intro j hj
      rw [hd.entry, if_neg (hcandidate i hi j hj)]
      exact ⟨rfl, rfl⟩
    · intro j hj b hown
      refine ⟨howns j b hown, ?_⟩
      rw [hd.buffer, if_neg (h.buf_ne he (hcandidate i hi j hj) hown)]

theorem Balanced.releaseLast (h : Balanced c rs) (ho : Owned c rs) (he : e < c.entries.size)
    (hlast : (c.entry e).refs = 1) (hd : LastRelease c e d) : Balanced d rs := by
  have hpos : 0 < (c.entry e).refs := by omega
  have hcharges := Heap.total_change (k := d.entries) (f := CacheEntry.liveCharge)
    (g := CacheEntry.liveCharge) he hd.size
    (fun j _ hje => congrArg CacheEntry.liveCharge ((hd.entry j).trans (if_neg hje)))
  have hafter : (d.entries.cell e).liveCharge = 0 := by
    rw [← TtlCache.entry, hd.entry, if_pos rfl]
    rfl
  have hbefore : (c.entries.cell e).liveCharge = (c.entry e).charge := by
    rw [← TtlCache.entry, CacheEntry.liveCharge, if_pos hpos]
  have hcapacities := total_liveCapacity_returnArray (c := c) (a := c.bodyOf (c.entry e))
    (fun a ha => ⟨ho.bodyOf_lt he ha, (ho.holder he hpos ha).1⟩)
  have hheld : 0 ≤ c.held (c.bodyOf (c.entry e)) := by
    cases hbody : c.bodyOf (c.entry e) with
    | none => exact le_refl _
    | some a => exact h.capacities a (ho.bodyOf_lt he hbody)
  refine ⟨?_, ?_, ?_, ?_⟩
  · rw [hd.used, hcharges, hafter, hbefore, hd.arrays, hcapacities, h.used]
    ring
  · have hle := h.used_le
    have hcharge := h.charges e he
    rw [hd.used, hd.limit.2]
    omega
  · intro j hj
    rw [hd.entry]
    split
    · exact h.charges e he
    · exact h.charges j (hd.size ▸ hj)
  · intro a ha
    rw [hd.arrays, TtlCache.size_arrays_returnArray] at ha
    rw [hd.arrays, TtlCache.array_returnArray]
    split_ifs
    · exact h.capacities a ha
    · exact h.capacities a ha

/-- **Releasing.** A release settles the reference that is owed. -/
theorem Accounts.releaseLocked (h : Accounts (some e) c rs) (he : e < c.entries.size) :
    Accounts none (c.releaseLocked e) rs := by
  have hpos : 0 < (c.entry e).refs := by
    have hholds : 0 ≤ rs.total (Request.holds e) :=
      Heap.total_nonneg (fun i _ => Request.holds_nonneg e _)
    rw [h.counted.refs e he, if_pos rfl]
    split_ifs <;> omega
  by_cases hlast : (c.entry e).refs - 1 = 0
  · have hd := lastRelease hlast
    have hone : (c.entry e).refs = 1 := by omega
    obtain ⟨l, hl⟩ := h.linked
    refine ⟨⟨l, hl.congr (TtlCache.links_releaseLocked c e) ?_ hd.size⟩,
      h.counted.releaseLast he hone hd, h.owned.releaseLast h.counted he hone hd,
      h.balanced.releaseLast h.owned he hone hd⟩
    intro j
    rw [hd.entry]
    split
    · rename_i hj
      rw [hj]
    · rfl
  · have hshared : c.releaseLocked e = c.updateEntry e (fun x => { x with refs := x.refs + -1 }) := by
      unfold TtlCache.releaseLocked
      simp only [TtlCache.entry_updateEntry, if_true, if_pos hlast]
      rfl
    rw [hshared]
    refine h.addRefs (-1) (by omega) (fun j => ?_)
    by_cases hj : j = e
    · simp [hj]
    · simp [hj, Ne.symm hj]

/-- **Retiring.** Retiring a retained entry keeps the books. -/
theorem Accounts.retireLocked {l : List ℕ} (h : Accounts none c rs) (hl : c.Linked l) (he : e ∈ l) :
    Accounts none (c.retireLocked e) rs := by
  refine (h.unlinkEntry hl he).releaseLocked ?_
  rw [(TtlCache.sameStore_unlinkEntry c e).size]
  exact ((hl.mem e).1 he).1

end Close

theorem Accounts.retireWhere (h : Accounts none c rs) (p : CacheEntry → Bool) (fuel : ℕ) :
    Accounts none (c.retireWhere p fuel c.head) rs := by
  obtain ⟨l, hl⟩ := h.linked
  exact TtlCache.retireWhere_preserves (P := fun c => Accounts none c rs) p
    (fun c l e hl he h => h.retireLocked hl he) fuel hl (fun e he => hl.chain.head_mem he) h

/-- Sweeps keep the books. -/
theorem Accounts.sweepLocked (h : Accounts none c rs) (now : ℤ) :
    Accounts none (c.sweepLocked now) rs := h.retireWhere _ _

theorem Accounts.evict (h : Accounts none c rs) (fuel : ℕ) : Accounts none (c.evict fuel) rs := by
  obtain ⟨l, hl⟩ := h.linked
  exact TtlCache.evict_preserves (P := fun c => Accounts none c rs)
    (fun c l e hl he h => h.retireLocked hl he) fuel hl h

/-! ### Requests move on -/

theorem Counted.update (h : Counted owed c rs) (hi : i < rs.size) (f : Request → Request)
    (hholds : ∀ e, (f (rs.cell i)).holds e + (if owed' = some e then 1 else 0) =
      (rs.cell i).holds e + (if owed = some e then 1 else 0))
    (hknown : ∀ e, (f (rs.cell i)).lease = some e ∨ (f (rs.cell i)).candidate = some e →
      e < c.entries.size)
    (halone : ∀ e, (f (rs.cell i)).candidate = some e →
      ∀ j, j < rs.size → j ≠ i → (rs.cell j).candidate ≠ some e) :
    Counted owed' c (rs.modify i f) := by
  refine ⟨h.count, h.count_le, ?_, h.once, ?_, ?_, h.published⟩
  · intro e he
    have hbefore := h.refs e he
    have hchange := hholds e
    rw [Heap.total_modify hi]
    omega
  · exact Heap.forall_modify (P := fun _ (r : Request) => ∀ e, r.lease = some e ∨ r.candidate = some e →
      e < c.entries.size) hknown (fun j hj _ => h.known j hj)
  · intro j hj k hk e hje hke
    rw [Heap.cell_modify] at hje hke
    split_ifs at hje hke with hji hki hki
    · rw [hji, hki]
    · exact absurd hke (halone e hje k hk hki)
    · exact absurd hje (halone e hke j hj hji)
    · exact h.alone j hj k hk e hje hke

theorem Counted.others (h : Counted owed c rs) {e : ℕ} (hi : i < rs.size)
    (hcand : (rs.cell i).candidate = some e) :
    ∀ j, j < rs.size → j ≠ i → (rs.cell j).candidate ≠ some e :=
  fun j hj hji hje => hji (h.alone j hj i hi e hje hcand)

/-- `Owned` after a step of request `i`, from what the step does to arrays, buffers and drafts. -/
theorem Owned.step (h : Owned c rs) {i : ℕ} (f : Request → Request)
    (harrays : ∀ a, a < c'.arrays.size → ((c'.arrays.cell a).returns : ℤ) +
      c'.entries.total (c'.bodyHolds a) + (rs.modify i f).total (Request.grows a) = 1)
    (hsize : c.arrays.size ≤ c'.arrays.size)
    (hgrowth : ∀ n a, (f (rs.cell i)).phase = .growing n a → a < c'.arrays.size)
    (hbodies : ∀ b, b < c'.buffers.size → ∀ a, (c'.buffer b).body = some a → a < c'.arrays.size)
    (hbufs : ∀ e, e < c'.entries.size → ∀ b, (c'.entry e).buf = some b → c'.Owns e b)
    (hdraft : Draft c' (f (rs.cell i)))
    (hothers : ∀ j, j < rs.size → j ≠ i → Draft c' (rs.cell j)) : Owned c' (rs.modify i f) := by
  refine ⟨harrays, hbodies, ?_, hbufs, Heap.forall_modify hdraft hothers⟩
  exact Heap.forall_modify (P := fun _ (r : Request) => ∀ n a, r.phase = .growing n a →
    a < c'.arrays.size) hgrowth
    (fun j hj _ n a hphase => lt_of_lt_of_le (h.growths j hj n a hphase) hsize)

/-- A step that keeps every body where it is, and the arrays with them. -/
theorem Owned.keepBodies (h : Owned c rs) (hi : i < rs.size) (f : Request → Request)
    (hsize : c'.entries.size = c.entries.size) (harrays : c'.arrays = c.arrays)
    (hlive : ∀ e, e < c.entries.size → (0 < (c'.entry e).refs ↔ 0 < (c.entry e).refs))
    (hbody : ∀ e, e < c.entries.size → c'.bodyOf (c'.entry e) = c.bodyOf (c.entry e))
    (hgrows : ∀ a, (f (rs.cell i)).grows a = (rs.cell i).grows a)
    (hbodies : ∀ b, b < c'.buffers.size → ∀ a, (c'.buffer b).body = some a → a < c.arrays.size)
    (hbufs : ∀ e, e < c.entries.size → ∀ b, (c'.entry e).buf = some b → c'.Owns e b)
    (hdraft : Draft c' (f (rs.cell i)))
    (hothers : ∀ j, j < rs.size → j ≠ i → Draft c' (rs.cell j)) : Owned c' (rs.modify i f) := by
  refine h.step f ?_ (by rw [harrays]) ?_ (by rwa [harrays]) (by rwa [hsize]) hdraft hothers
  · intro a ha
    rw [harrays] at ha
    have htotal : c'.entries.total (c'.bodyHolds a) = c.entries.total (c.bodyHolds a) :=
      Heap.total_congr hsize (fun e he => TtlCache.bodyHolds_congr (hlive e he) (hbody e he))
    rw [htotal, harrays, Heap.total_modify hi, hgrows, sub_add_cancel]
    exact h.arrays a ha
  · intro n a hphase
    have hsame := hgrows a
    simp only [Request.grows, hphase, if_true] at hsame
    rw [harrays]
    cases hbefore : (rs.cell i).phase with
    | growing m b =>
      simp only [hbefore] at hsame
      split_ifs at hsame with hba
      · exact hba ▸ h.growths i hi m b hbefore
      · cases hsame
    | _ => simp [hbefore] at hsame

theorem Owned.update (h : Owned c rs) (hi : i < rs.size) (f : Request → Request)
    (hgrows : ∀ a, (f (rs.cell i)).grows a = (rs.cell i).grows a)
    (hdraft : Draft c (f (rs.cell i))) : Owned c (rs.modify i f) :=
  h.keepBodies hi f rfl rfl (fun _ _ => Iff.rfl) (fun _ _ => rfl) hgrows h.bodies h.bufs hdraft
    (fun j hj _ => h.drafts j hj)

theorem Balanced.update (h : Balanced c rs) (hi : i < rs.size) (f : Request → Request)
    (hactive : (f (rs.cell i)).active = (rs.cell i).active) : Balanced c (rs.modify i f) := by
  refine ⟨?_, h.used_le, h.charges, h.capacities⟩
  rw [Heap.total_modify hi, hactive, sub_add_cancel]
  exact h.used

/-- **Requests.** A request that keeps what it holds, up to the reference owed, keeps the books. -/
theorem Accounts.update (h : Accounts owed c rs) (hi : i < rs.size) (f : Request → Request)
    (hholds : ∀ e, (f (rs.cell i)).holds e + (if owed' = some e then 1 else 0) =
      (rs.cell i).holds e + (if owed = some e then 1 else 0))
    (hknown : ∀ e, (f (rs.cell i)).lease = some e ∨ (f (rs.cell i)).candidate = some e →
      e < c.entries.size)
    (halone : ∀ e, (f (rs.cell i)).candidate = some e →
      ∀ j, j < rs.size → j ≠ i → (rs.cell j).candidate ≠ some e)
    (hgrows : ∀ a, (f (rs.cell i)).grows a = (rs.cell i).grows a)
    (hdraft : Draft c (f (rs.cell i))) (hactive : (f (rs.cell i)).active = (rs.cell i).active) :
    Accounts owed' c (rs.modify i f) :=
  ⟨h.linked, h.counted.update hi f hholds hknown halone, h.owned.update hi f hgrows hdraft,
    h.balanced.update hi f hactive⟩

/-- A request that moves to another phase outside body growth. -/
theorem Accounts.setPhase (h : Accounts none c rs) (hi : i < rs.size) (phase : Phase)
    (hdraft : Draft c { rs.cell i with phase := phase })
    (hgrows : ∀ a, ({ rs.cell i with phase := phase } : Request).grows a = (rs.cell i).grows a)
    (hactive : ({ rs.cell i with phase := phase } : Request).active = (rs.cell i).active) :
    Accounts none c (rs.modify i (fun r => { r with phase := phase })) :=
  h.update hi _ (fun _ => rfl) (fun e he => h.counted.known i hi e he) (fun _ => h.counted.others hi) hgrows
    hdraft hactive

/-- A new request holds nothing. -/
theorem Accounts.alloc (h : Accounts none c rs) (r : Request) (hphase : r.phase = .waiting)
    (hlease : r.lease = none) (hcandidate : r.candidate = none) : Accounts none c (rs.alloc r) := by
  have hcell : ∀ j, j < (rs.alloc r).size → (j < rs.size ∧ (rs.alloc r).cell j = rs.cell j) ∨
      (rs.alloc r).cell j = r := by
    intro j hj
    rw [Heap.cell_alloc]
    by_cases hjs : j = rs.size
    · exact Or.inr (if_pos hjs)
    · rw [Heap.size_alloc] at hj
      exact Or.inl ⟨by omega, if_neg hjs⟩
  refine ⟨h.linked, ?_, ?_, ?_⟩
  · refine ⟨h.counted.count, h.counted.count_le, ?_, h.counted.once, ?_, ?_, h.counted.published⟩
    · intro e he
      rw [Heap.total_alloc (fun _ _ => rfl), h.counted.refs e he]
      simp [Request.holds, hlease, hcandidate]
    · intro j hj e hold
      rcases hcell j hj with ⟨hj, hsame⟩ | hsame
      · rw [hsame] at hold
        exact h.counted.known j hj e hold
      · rw [hsame, hlease, hcandidate] at hold
        rcases hold with hold | hold <;> cases hold
    · intro j hj k hk e hje hke
      rcases hcell j hj with ⟨hj, hsame⟩ | hsame
      · rcases hcell k hk with ⟨hk, hsame'⟩ | hsame'
        · rw [hsame] at hje
          rw [hsame'] at hke
          exact h.counted.alone j hj k hk e hje hke
        · rw [hsame', hcandidate] at hke
          cases hke
      · rw [hsame, hcandidate] at hje
        cases hje
  · refine ⟨?_, h.owned.bodies, ?_, h.owned.bufs, ?_⟩
    · intro a ha
      rw [Heap.total_alloc (fun _ _ => rfl)]
      have hzero : r.grows a = 0 := by rw [Request.grows, hphase]
      rw [hzero, add_zero]
      exact h.owned.arrays a ha
    · intro j hj n a hgrow
      rcases hcell j hj with ⟨hj, hsame⟩ | hsame
      · rw [hsame] at hgrow
        exact h.owned.growths j hj n a hgrow
      · rw [hsame, hphase] at hgrow
        cases hgrow
    · intro j hj
      rcases hcell j hj with ⟨hj, hsame⟩ | hsame
      · rw [hsame]
        exact h.owned.drafts j hj
      · rw [hsame, Draft, hphase]
        exact ⟨hlease, hcandidate⟩
  · refine ⟨?_, h.balanced.used_le, h.balanced.charges, h.balanced.capacities⟩
    rw [Heap.total_alloc (fun _ _ => rfl), h.balanced.used]
    simp [Request.active, hphase]

/-! ### Reservations and returns of scratch -/

theorem Budget.reserve_some {b b' : Budget} {n : ℤ} (h : b.reserve n = some b') :
    b'.used = b.used + n ∧ b'.limit = b.limit ∧ b'.used ≤ b'.limit := by
  obtain ⟨hroom, h⟩ := Option.ite_none_left_eq_some.1 h
  rw [← Option.some.inj h]
  exact ⟨rfl, rfl, by simp only; omega⟩

/-- A request that changes only its phase, and the budget with it. -/
theorem Accounts.scratch (h : Accounts none c rs) (hi : i < rs.size) {phase : Phase} {b : Budget}
    (hgrows : ∀ a, ({ rs.cell i with phase := phase } : Request).grows a = (rs.cell i).grows a)
    (hdraft : Draft c { rs.cell i with phase := phase })
    (hused : b.used = c.budget.used + cacheScratchBytes *
      (({ rs.cell i with phase := phase } : Request).active - (rs.cell i).active))
    (hle : b.used ≤ b.limit) :
    Accounts none { c with budget := b } (rs.modify i (fun r => { r with phase := phase })) := by
  obtain ⟨l, hl⟩ := h.linked
  have hcounted := h.counted.update hi (fun r => { r with phase := phase }) (fun _ => rfl)
    (fun e he => h.counted.known i hi e he) (fun _ => h.counted.others hi)
  have howned := h.owned.update hi (fun r => { r with phase := phase }) hgrows hdraft
  refine ⟨⟨l, hl.chain, hl.mem, hl.unlinked⟩, ⟨hcounted.count, hcounted.count_le, hcounted.refs,
    hcounted.once, hcounted.known, hcounted.alone, hcounted.published⟩,
    howned.congr (fun e => SameEntry.refl _) (fun _ _ => Or.inr (fun _ _ => rfl)) rfl rfl rfl, ?_, hle, h.balanced.charges,
    h.balanced.capacities⟩
  have hbefore := h.balanced.used
  simp only
  rw [hused, hbefore, Heap.total_modify hi]
  ring

end Frames

end Statute.Cache
