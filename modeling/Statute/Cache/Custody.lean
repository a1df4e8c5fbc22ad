import Statute.Cache.Accounting

/-!
# Custody of bodies and entries

The steps that create entries, buffers and arrays, or hand them on: a new candidate, a lease, the
buffer of a writer, its growth and its early release, and publication, which passes the body on to a
copy of the buffer.  Each of them keeps the books.
-/

namespace Statute.Cache

open Statute.Base

variable {c c' : TtlCache} {rs : Heap Request}

/-! ### Entries -/

/-- The list does not see entries outside it. -/
theorem TtlCache.Linked.alloc {l : List ℕ} (h : c.Linked l) (x : CacheEntry) (hnext : x.next = none)
    (hretained : x.retained = false) :
    ({ c with entries := c.entries.alloc x } : TtlCache).Linked l := by
  have hold : ∀ e, e < c.entries.size → ({ c with entries := c.entries.alloc x } : TtlCache).entry e =
      c.entry e := by
    intro e he
    simp [TtlCache.entry, he.ne]
  have hnew : ({ c with entries := c.entries.alloc x } : TtlCache).entry c.entries.size = x := by
    simp [TtlCache.entry]
  refine ⟨h.chain.congr rfl rfl ?_, ?_, ?_⟩
  · intro e he
    have hsame := hold e ((h.mem e).1 he).1
    exact ⟨congrArg CacheEntry.prev hsame, congrArg CacheEntry.next hsame⟩
  · intro e
    rw [h.mem]
    constructor
    · rintro ⟨he, hret⟩
      exact ⟨Nat.lt_succ_of_lt he, by rw [hold e he]; exact hret⟩
    · rintro ⟨he, hret⟩
      rcases Nat.lt_succ_iff_lt_or_eq.1 he with he | rfl
      · exact ⟨he, by rw [hold e he] at hret; exact hret⟩
      · rw [hnew, hretained] at hret
        cases hret
  · intro e he hret
    rcases Nat.lt_succ_iff_lt_or_eq.1 he with he | rfl
    · rw [hold e he] at hret ⊢
      exact h.unlinked e he hret
    · rw [hnew, hnext]

variable {i : ℕ}

/-- A new entry, with a reference that is owed to somebody. -/
theorem Accounts.allocEntry (h : Accounts none c rs) (hroom : c.count < c.limit) {b : Budget}
    (hreserve : c.budget.reserve cacheEntryControlBytes = some b) :
    Accounts (some c.entries.size) ({ c with budget := b } : TtlCache).newCandidate rs := by
  obtain ⟨hused, hlimit, hle⟩ := Budget.reserve_some hreserve
  obtain ⟨l, hl⟩ := h.linked
  have hentry : ∀ e, e < c.entries.size →
      (({ c with budget := b } : TtlCache).newCandidate).entry e = c.entry e := by
    intro e he
    simp [TtlCache.newCandidate, TtlCache.entry, he.ne]
  have hnew : (({ c with budget := b } : TtlCache).newCandidate).entry c.entries.size =
      { refs := 1, charge := cacheEntryControlBytes } := by
    simp [TtlCache.newCandidate, TtlCache.entry]
  -- no request knows the new entry
  have hunknown : rs.total (Request.holds c.entries.size) = 0 := by
    rw [Heap.total]
    apply Finset.sum_eq_zero
    intro j hj
    have hlt := h.counted.known j (Finset.mem_range.1 hj) c.entries.size
    have hlease : (rs.cell j).lease ≠ some c.entries.size := fun hl => absurd (hlt (Or.inl hl)) (by omega)
    have hcand : (rs.cell j).candidate ≠ some c.entries.size := fun hl =>
      absurd (hlt (Or.inr hl)) (by omega)
    simp [Request.holds, hlease, hcand]
  refine ⟨⟨l, ?_⟩, ?_, ?_, ?_⟩
  · have hlinked := hl.alloc { refs := 1, charge := cacheEntryControlBytes } rfl rfl
    exact ⟨hlinked.chain, hlinked.mem, hlinked.unlinked⟩
  · refine ⟨?_, ?_, ?_, ?_, fun j hj e hold => Nat.lt_succ_of_lt (h.counted.known j hj e hold),
      h.counted.alone, ?_⟩
    · simp only [TtlCache.newCandidate]
      rw [Heap.total_alloc (fun _ _ => rfl), h.counted.count]
      rfl
    · simp only [TtlCache.newCandidate]
      omega
    · intro e he
      rcases Nat.lt_succ_iff_lt_or_eq.1 he with he | rfl
      · rw [hentry e he, h.counted.refs e he]
        simp [he.ne']
      · rw [hnew, hunknown]
        simp
    · intro e he
      rcases Nat.lt_succ_iff_lt_or_eq.1 he with he | rfl
      · rw [hentry e he]
        exact h.counted.once e he
      · rw [hnew]
        rfl
    · intro e he hret
      rcases Nat.lt_succ_iff_lt_or_eq.1 he with he | rfl
      · rw [hentry e he] at hret ⊢
        exact h.counted.published e he hret
      · rw [hnew] at hret
        cases hret
  · refine ⟨?_, h.owned.bodies, h.owned.growths, ?_, ?_⟩
    · intro a ha
      have htotal : (({ c with budget := b } : TtlCache).newCandidate).entries.total
          ((({ c with budget := b } : TtlCache).newCandidate).bodyHolds a) =
          c.entries.total (c.bodyHolds a) := by
        have halloc := Heap.total_alloc (h := c.entries)
          (a := ({ refs := 1, charge := cacheEntryControlBytes } : CacheEntry)) (f := c.bodyHolds a)
          (g := (({ c with budget := b } : TtlCache).newCandidate).bodyHolds a) (fun _ _ => rfl)
        refine halloc.trans ?_
        simp [TtlCache.bodyHolds, TtlCache.bodyOf]
      rw [htotal]
      exact h.owned.arrays a ha
    · intro e he b' hbuf
      rcases Nat.lt_succ_iff_lt_or_eq.1 he with he | rfl
      · rw [hentry e he] at hbuf
        exact h.owned.bufs e he b' hbuf
      · rw [hnew] at hbuf
        cases hbuf
    · intro j hj
      refine (h.owned.drafts j hj).congr ?_ (fun e _ b' hb' => ⟨hb', rfl⟩)
      intro e he
      rw [hentry e (h.counted.known j hj e (Or.inr he))]
      exact ⟨rfl, rfl⟩
  · refine ⟨?_, hle, ?_, h.balanced.capacities⟩
    · simp only [TtlCache.newCandidate]
      rw [Heap.total_alloc (fun _ _ => rfl), hused, h.balanced.used]
      simp only [CacheEntry.liveCharge]
      norm_num
      ring
    · intro e he
      rcases Nat.lt_succ_iff_lt_or_eq.1 he with he | rfl
      · rw [hentry e he]
        exact h.balanced.charges e he
      · rw [hnew]
        decide

/-- The request that is admitted gets the new entry as its candidate. -/
theorem Accounts.newCandidate (h : Accounts none c rs) (hi : i < rs.size)
    (hphase : (rs.cell i).phase = .admitting) (hroom : c.count < c.limit) {b : Budget}
    (hreserve : c.budget.reserve cacheEntryControlBytes = some b) :
    Accounts none ({ c with budget := b } : TtlCache).newCandidate
      (rs.modify i (fun r => { r with phase := .admitted, candidate := some c.entries.size })) := by
  have hnone : (rs.cell i).candidate = none := by
    have hdraft := h.owned.drafts i hi
    rw [Draft, hphase] at hdraft
    exact hdraft
  refine (h.allocEntry hroom hreserve).update hi _ ?_ ?_ ?_ ?_ ?_ ?_
  · intro k
    simp [Request.holds, hnone]
  · rintro k (hk | hk)
    · exact Nat.lt_succ_of_lt (h.counted.known i hi k (Or.inl hk))
    · exact Option.some.inj hk ▸ Nat.lt_succ_self _
  · intro k hk j hj _ hcand
    rw [← Option.some.inj hk] at hcand
    exact absurd (h.counted.known j hj _ (Or.inr hcand)) (lt_irrefl _)
  · intro a
    simp [Request.grows, hphase]
  · refine ⟨c.entries.size, rfl, ?_, ?_⟩ <;> simp [TtlCache.newCandidate, TtlCache.entry]
  · simp [Request.active, hphase]

variable {e : ℕ}

/-- A retained entry has references. -/
theorem Accounts.retained_live (h : Accounts none c rs) (he : e < c.entries.size)
    (hret : (c.entry e).retained = true) : 0 < (c.entry e).refs := by
  have hholds : 0 ≤ rs.total (Request.holds e) :=
    Heap.total_nonneg (fun i _ => Request.holds_nonneg e _)
  rw [h.counted.refs e he, if_pos hret]
  split_ifs <;> omega

/-- One more reference to a live entry is owed to somebody. -/
theorem Accounts.addRef (h : Accounts none c rs) (hlive : 0 < (c.entry e).refs) :
    Accounts (some e) (c.updateEntry e (fun x => { x with refs := x.refs + 1 })) rs := by
  refine h.addRefs 1 (by omega) (fun j => ?_)
  by_cases hj : j = e
  · simp [hj]
  · simp [hj, Ne.symm hj]

/-! ### Buffers -/

/-- What a step of request `i` on its candidate leaves alone: links, counts and the requests' holds. -/
structure SameCounts (c c' : TtlCache) : Prop where
  links : c'.links = c.links
  size : c'.entries.size = c.entries.size
  count : c'.count = c.count
  limit : c'.limit = c.limit
  entry : ∀ e, (c'.entry e).refs = (c.entry e).refs ∧ (c'.entry e).retained = (c.entry e).retained ∧
    (c'.entry e).returns = (c.entry e).returns ∧ (c'.entry e).published = (c.entry e).published

theorem Counted.congr {owed : Option ℕ} (h : Counted owed c rs) (hsame : SameCounts c c') :
    Counted owed c' rs := by
  refine h.recount hsame.size hsame.count hsame.limit ?_ ?_ ?_
  · intro e
    obtain ⟨hrefs, _, hreturns, _⟩ := hsame.entry e
    rw [hrefs]
    exact ⟨Iff.rfl, hreturns⟩
  · intro e
    rw [CacheEntry.byRequests, (hsame.entry e).1, (hsame.entry e).2.1]
    rfl
  · intro e he hret
    obtain ⟨_, hretained, _, hpub⟩ := hsame.entry e
    rw [hpub]
    exact h.published e he (hretained ▸ hret)

theorem SameCounts.linked (hsame : SameCounts c c') (h : ∃ l, c.Linked l) : ∃ l, c'.Linked l := by
  obtain ⟨l, hl⟩ := h
  exact ⟨l, hl.congr hsame.links (fun e => (hsame.entry e).2.1) hsame.size⟩

/-- A step that writes fields of one entry which do not count. -/
theorem sameCounts_of_modify {g : CacheEntry → CacheEntry} {budget : Budget}
    {buffers : Heap ResponseBuffer} (hc' : c' = { c with
      entries := c.entries.modify e g, budget := budget, buffers := buffers })
    (hlinks : ∀ x, (g x).prev = x.prev ∧ (g x).next = x.next)
    (hg : ∀ x, (g x).refs = x.refs ∧ (g x).retained = x.retained ∧ (g x).returns = x.returns ∧
      (g x).published = x.published) : SameCounts c c' := by
  have hentry : ∀ k, c'.entry k = if k = e then g (c.entry e) else c.entry k := by
    intro k
    rw [hc']
    exact Heap.cell_modify _ e k g
  refine ⟨?_, by rw [hc']; rfl, by rw [hc'], by rw [hc'], ?_⟩
  · have hlinks' : ∀ k, (c'.entry k).prev = (c.entry k).prev ∧ (c'.entry k).next = (c.entry k).next := by
      intro k
      rw [hentry]
      split_ifs with hk
      · rw [hk]
        exact hlinks _
      · exact ⟨rfl, rfl⟩
    simp only [TtlCache.links, (hlinks' _).1, (hlinks' _).2]
    rw [hc']
  · intro k
    rw [hentry]
    split_ifs with hk
    · rw [hk]
      exact hg _
    · exact ⟨rfl, rfl, rfl, rfl⟩

/-- The draft of a request when a step concerns the candidate of another one. -/
theorem Owned.draft_other (h : Owned c rs) {j : ℕ} (hj : j < rs.size)
    (hne : (rs.cell j).candidate ≠ some e)
    (hentry : ∀ k, k ≠ e → (c'.entry k).published = (c.entry k).published ∧
      (c'.entry k).buf = (c.entry k).buf) (hbuffer : ∀ k, k ≠ e → ∀ b, c.Owns k b →
      c'.Owns k b ∧ (c'.buffer b).body = (c.buffer b).body) : Draft c' (rs.cell j) := by
  refine (h.drafts j hj).congr ?_ ?_
  · intro k hk
    exact hentry k (fun hke => hne (hke ▸ hk))
  · intro k hk b hown
    exact hbuffer k (fun hke => hne (hke ▸ hk)) b hown

/-- **Bodies.** The writer of a candidate gives up the array of its body, which goes back to the
budget, and continues with another one or with none. -/
theorem Accounts.replaceBody (h : Accounts none c rs) {b : ℕ} (hi : i < rs.size)
    (hcand : (rs.cell i).candidate = some e) (hd : c.Drafting e b)
    (u : ResponseBuffer → ResponseBuffer) (new : Option ℕ) (hbody : ∀ x, (u x).body = new)
    (howner : ∀ x, (u x).entry = x.entry) (hnew : ∀ a, new = some a → a < c.arrays.size)
    (f : Request → Request) (hlease : (f (rs.cell i)).lease = (rs.cell i).lease)
    (hcand' : (f (rs.cell i)).candidate = some e)
    (hgrows : ∀ a, (f (rs.cell i)).grows a = (rs.cell i).grows a - (if new = some a then 1 else 0))
    (hgrowth : ∀ n a, (f (rs.cell i)).phase ≠ .growing n a)
    (hactive : (f (rs.cell i)).active = (rs.cell i).active)
    (hdraft : ∀ c' : TtlCache, c'.Drafting e b → Draft c' (f (rs.cell i))) :
    Accounts none ((c.updateBuffer b u).returnArray (c.buffer b).body) (rs.modify i f) := by
  generalize hc' : (c.updateBuffer b u).returnArray (c.buffer b).body = c'
  have he : e < c.entries.size := h.counted.known i hi e (Or.inr hcand)
  have hlive : 0 < (c.entry e).refs := h.counted.refs_pos hi (Or.inr hcand)
  have hentries : c'.entries = c.entries := by rw [← hc', TtlCache.entries_returnArray]; rfl
  have hentry : ∀ k, c'.entry k = c.entry k := fun k => by
    rw [TtlCache.entry, hentries, TtlCache.entry]
  have hbuffers : c'.buffers.size = c.buffers.size := by
    rw [← hc', TtlCache.buffers_returnArray]
    rfl
  have hbuffer : ∀ k, c'.buffer k = if k = b then u (c.buffer b) else c.buffer k := by
    intro k
    rw [← hc', TtlCache.buffer, TtlCache.buffers_returnArray]
    exact TtlCache.buffer_updateBuffer c b k u
  have harray : ∀ a, c'.arrays.cell a = if (c.buffer b).body = some a then
      { c.arrays.cell a with returns := (c.arrays.cell a).returns + 1 } else c.arrays.cell a := by
    intro a
    rw [← hc', TtlCache.array_returnArray]
    rfl
  have harrays : c'.arrays.size = c.arrays.size := by
    rw [← hc', TtlCache.size_arrays_returnArray]
    rfl
  have hold : c.bodyOf (c.entry e) = (c.buffer b).body := by
    rw [TtlCache.bodyOf, hd.buf]
    rfl
  have hnewBody : c'.bodyOf (c'.entry e) = new := by
    rw [hentry, TtlCache.bodyOf, hd.buf, Option.bind_some, hbuffer, if_pos rfl, hbody]
  have hothers : ∀ k, k < c.entries.size → k ≠ e → c'.bodyOf (c'.entry k) = c.bodyOf (c.entry k) := by
    intro k hk hke
    rw [hentry, TtlCache.bodyOf, TtlCache.bodyOf]
    cases hbuf : (c.entry k).buf with
    | none => rfl
    | some b' =>
      have hne : b' ≠ b := by
        rintro rfl
        exact hke ((h.owned.bufs k hk b' hbuf).2.symm.trans hd.owns.2)
      rw [Option.bind_some, Option.bind_some, hbuffer, if_neg hne]
  have howns : ∀ k b', c.Owns k b' → c'.Owns k b' := by
    intro k b' hown
    refine ⟨hbuffers ▸ hown.1, ?_⟩
    rw [hbuffer]
    split_ifs with hb
    · rw [howner, ← hb]
      exact hown.2
    · exact hown.2
  have hsame : SameCounts c c' := by
    refine ⟨?_, by rw [hentries], ?_, ?_, ?_⟩
    · simp only [TtlCache.links, hentry]
      rw [← hc', TtlCache.head_returnArray, TtlCache.tail_returnArray]
      rfl
    · rw [← hc', (TtlCache.limits_returnArray _ _).2.2.1]
      rfl
    · rw [← hc', (TtlCache.limits_returnArray _ _).1]
      rfl
    · intro k
      rw [hentry]
      exact ⟨rfl, rfl, rfl, rfl⟩
  refine ⟨hsame.linked h.linked, (h.counted.congr hsame).update hi f ?_ ?_ ?_, ?_, ?_⟩
  · intro k
    simp [Request.holds, hlease, hcand', hcand]
  · intro k hk
    rw [hlease, hcand', ← hcand] at hk
    rw [hentries]
    exact h.counted.known i hi k hk
  · intro k hk
    exact h.counted.others hi (hcand.trans (hcand'.symm.trans hk))
  · refine h.owned.step f ?_ (by rw [harrays]) (fun n a hphase => absurd hphase (hgrowth n a)) ?_ ?_
      (hdraft c' ?_) ?_
    · intro a ha
      rw [harrays] at ha
      have hsum := h.owned.arrays a ha
      have hchange := Heap.total_change (k := c'.entries) (f := c.bodyHolds a) (g := c'.bodyHolds a) he
        (by rw [hentries]) (fun k hk hke =>
          TtlCache.bodyHolds_congr (by rw [← TtlCache.entry, hentry]; rfl) (hothers k hk hke))
      have hbefore : c.bodyHolds a (c.entries.cell e) =
          if (c.buffer b).body = some a then 1 else 0 := by
        rw [← TtlCache.entry, TtlCache.bodyHolds, hold]
        simp [hlive]
      have hafter : c'.bodyHolds a (c'.entries.cell e) = if new = some a then 1 else 0 := by
        rw [← TtlCache.entry, TtlCache.bodyHolds, hnewBody, hentry]
        simp [hlive]
      rw [hchange, hbefore, hafter, harray, Heap.total_modify hi, hgrows]
      split_ifs
      · push_cast
        omega
      · push_cast
        omega
      · omega
      · omega
    · intro b' hb' a hbody'
      rw [harrays]
      rw [hbuffer] at hbody'
      split_ifs at hbody' with hbb
      · rw [hbody] at hbody'
        exact hnew a hbody'
      · exact h.owned.bodies b' (hbuffers ▸ hb') a hbody'
    · intro k hk b' hbuf
      rw [hentry] at hbuf
      exact howns k b' (h.owned.bufs k (hentries ▸ hk) b' hbuf)
    · exact ⟨by rw [hentry]; exact hd.unpublished, by rw [hentry]; exact hd.buf, howns e b hd.owns⟩
    · intro j hj hji
      refine h.owned.draft_other hj (h.counted.others hi hcand j hj hji) ?_ ?_
      · intro k _
        rw [hentry]
        exact ⟨rfl, rfl⟩
      · intro k hk b' hown
        refine ⟨howns k b' hown, ?_⟩
        have hne : b' ≠ b := by
          rintro rfl
          exact hk (hown.2.symm.trans hd.owns.2)
        rw [hbuffer, if_neg hne]
  · have hcapacity := total_liveCapacity_returnArray (c := c.updateBuffer b u) (a := (c.buffer b).body)
      (fun a ha => ⟨h.owned.bodyOf_lt he (hold.trans ha), (h.owned.holder he hlive (hold.trans ha)).1⟩)
    rw [hc'] at hcapacity
    have hheld : 0 ≤ (c.updateBuffer b u).held (c.buffer b).body := by
      cases ha : (c.buffer b).body with
      | none => exact le_refl _
      | some a => exact h.balanced.capacities a (h.owned.bodyOf_lt he (hold.trans ha))
    have hused : c'.budget.used = c.budget.used - (c.updateBuffer b u).held (c.buffer b).body := by
      rw [← hc', TtlCache.used_returnArray]
      rfl
    have hlimit : c'.budget.limit = c.budget.limit := by
      rw [← hc', (TtlCache.limits_returnArray _ _).2.2.2]
      rfl
    refine Balanced.update ⟨?_, ?_, ?_, ?_⟩ hi f hactive
    · have harr : (c.updateBuffer b u).arrays = c.arrays := rfl
      rw [harr] at hcapacity
      rw [hcapacity, hused, hentries, h.balanced.used]
      ring
    · have := h.balanced.used_le
      rw [hlimit]
      omega
    · intro k hk
      rw [hentry]
      exact h.balanced.charges k (hentries ▸ hk)
    · intro a ha
      rw [harrays] at ha
      rw [harray]
      split_ifs
      · exact h.balanced.capacities a ha
      · exact h.balanced.capacities a ha

/-- The reservation of a larger body: the request holds the new array until it takes over. -/
theorem Accounts.growBody (h : Accounts none c rs) (hi : i < rs.size)
    (hphase : (rs.cell i).phase = .producing) {n capacity : ℤ} (hpos : 0 ≤ capacity) {b : Budget}
    (hreserve : c.budget.reserve capacity = some b) :
    Accounts none { c with budget := b, arrays := c.arrays.alloc { capacity := capacity } }
      (rs.modify i (fun r => { r with phase := .growing n c.arrays.size })) := by
  obtain ⟨hused, hlimit, hle⟩ := Budget.reserve_some hreserve
  generalize hc' : ({ c with budget := b, arrays := c.arrays.alloc { capacity := capacity } } :
    TtlCache) = c'
  have hsame : SameCounts c c' := by
    subst hc'
    exact ⟨rfl, rfl, rfl, rfl, fun e => ⟨rfl, rfl, rfl, rfl⟩⟩
  have hgrowsOld : ∀ a, (rs.cell i).grows a = 0 := fun a => by rw [Request.grows, hphase]
  have harrays : c'.arrays = c.arrays.alloc { capacity := capacity } := by rw [← hc']
  have hholds : ∀ a, c'.entries.total (c'.bodyHolds a) = c.entries.total (c.bodyHolds a) := by
    subst hc'
    exact fun a => rfl
  refine ⟨hsame.linked h.linked, (h.counted.congr hsame).update hi _ (fun _ => rfl)
    (fun e he => by rw [hsame.size]; exact h.counted.known i hi e he)
    (fun _ => h.counted.others hi), ?_, ?_⟩
  · refine h.owned.step _ ?_ (by rw [harrays]; exact Nat.le_succ _) ?_ ?_ ?_ ?_ ?_
    · intro a ha
      rw [harrays] at ha ⊢
      rw [hholds, Heap.total_modify hi, hgrowsOld]
      rcases Nat.lt_succ_iff_lt_or_eq.1 ha with ha | rfl
      · have hsum := h.owned.arrays a ha
        rw [Heap.cell_alloc, if_neg ha.ne]
        simp only [Request.grows, if_neg ha.ne']
        omega
      · -- nobody knows the new array
        have hbodies : c.entries.total (c.bodyHolds c.arrays.size) = 0 := by
          rw [Heap.total]
          apply Finset.sum_eq_zero
          intro e he
          rw [TtlCache.bodyHolds, if_neg]
          rintro ⟨_, hbody⟩
          exact absurd (h.owned.bodyOf_lt (Finset.mem_range.1 he) hbody) (by omega)
        have hgrowths : rs.total (Request.grows c.arrays.size) = 0 := by
          rw [Heap.total]
          apply Finset.sum_eq_zero
          intro j hj
          unfold Request.grows
          split
          · rename_i m a hgrow
            rw [if_neg]
            rintro rfl
            exact absurd (h.owned.growths j (Finset.mem_range.1 hj) m _ hgrow) (by omega)
          · rfl
        rw [hbodies, hgrowths, Heap.cell_alloc, if_pos rfl]
        simp [Request.grows]
    · intro m a hgrow
      rw [harrays]
      obtain ⟨_, rfl⟩ := Phase.growing.inj hgrow
      exact Nat.lt_succ_self _
    · intro b' hb' a hbody
      rw [harrays]
      refine Nat.lt_succ_of_lt (h.owned.bodies b' ?_ a ?_)
      · rw [← hc'] at hb'
        exact hb'
      · rw [← hc'] at hbody
        exact hbody
    · intro e he b' hbuf
      subst hc'
      exact h.owned.bufs e he b' hbuf
    · have hdraft := h.owned.drafts i hi
      simp only [Draft, hphase] at hdraft
      subst hc'
      obtain ⟨e, hcand, hd⟩ := hdraft
      exact ⟨e, hcand, hd.unpublished, hd.buf, hd.owns⟩
    · intro j hj hji
      subst hc'
      exact (h.owned.drafts j hj).congr (fun e _ => ⟨rfl, rfl⟩) (fun e _ b' hown => ⟨hown, rfl⟩)
  · have hbalanced : Balanced c' rs := by
      subst hc'
      refine ⟨?_, hle, h.balanced.charges, ?_⟩
      · simp only
        rw [Heap.total_alloc (fun _ _ => rfl), hused, h.balanced.used]
        simp only [BodyArray.liveCapacity]
        norm_num
        ring
      · intro a ha
        rcases Nat.lt_succ_iff_lt_or_eq.1 ha with ha | rfl
        · simp only [Heap.cell_alloc, if_neg ha.ne]
          exact h.balanced.capacities a ha
        · simpa using hpos
    exact hbalanced.update hi _ (by simp [Request.active, hphase])

/-- **Writing on.** A step of request `i` that writes fields of its candidate and of buffers, may
charge the entry, and leaves every body where it is. -/
theorem Accounts.writeEntry (h : Accounts none c rs) (hi : i < rs.size)
    (hcand : (rs.cell i).candidate = some e) (g : CacheEntry → CacheEntry) (f : Request → Request)
    (charge : ℤ) {budget : Budget} {buffers : Heap ResponseBuffer} (hc' : c' = { c with
      entries := c.entries.modify e g, budget := budget, buffers := buffers }) (hlinks : ∀ x, (g x).prev = x.prev ∧ (g x).next = x.next)
    (hg : ∀ x, (g x).refs = x.refs ∧ (g x).retained = x.retained ∧ (g x).returns = x.returns ∧
      (g x).published = x.published) (hcharge : ∀ x, (g x).charge = x.charge + charge)
    (hpos : 0 ≤ charge) (hused : budget.used = c.budget.used + charge)
    (hle : budget.used ≤ budget.limit) (hbuffers : c.buffers.size ≤ c'.buffers.size)
    (hold : ∀ b, b < c.buffers.size → (c'.buffer b).body = (c.buffer b).body ∧
      (c'.buffer b).entry = (c.buffer b).entry)
    (hbodies : ∀ b, c.buffers.size ≤ b → b < c'.buffers.size → ∀ a, (c'.buffer b).body = some a →
      a < c.arrays.size) (hbuf : ∀ b, (g (c.entry e)).buf = some b → c'.Owns e b)
    (hbody : c'.bodyOf (g (c.entry e)) = c.bodyOf (c.entry e))
    (hlease : (f (rs.cell i)).lease = (rs.cell i).lease)
    (hcand' : (f (rs.cell i)).candidate = (rs.cell i).candidate)
    (hgrows : ∀ a, (f (rs.cell i)).grows a = (rs.cell i).grows a)
    (hactive : (f (rs.cell i)).active = (rs.cell i).active) (hdraft : Draft c' (f (rs.cell i))) :
    Accounts none c' (rs.modify i f) := by
  have he : e < c.entries.size := h.counted.known i hi e (Or.inr hcand)
  have hlive : 0 < (c.entry e).refs := h.counted.refs_pos hi (Or.inr hcand)
  have hsame := sameCounts_of_modify hc' hlinks hg
  have hentries : c'.entries = c.entries.modify e g := by rw [hc']
  have harrays : c'.arrays = c.arrays := by rw [hc']
  have hbudget : c'.budget = budget := by rw [hc']
  have hentry : ∀ k, c'.entry k = if k = e then g (c.entry e) else c.entry k := by
    intro k
    rw [TtlCache.entry, hentries, Heap.cell_modify]
    rfl
  have howns : ∀ k b, c.Owns k b → c'.Owns k b := fun k b hown =>
    ⟨lt_of_lt_of_le hown.1 hbuffers, (hold b hown.1).2.trans hown.2⟩
  refine ⟨hsame.linked h.linked, (h.counted.congr hsame).update hi f ?_ ?_ ?_, ?_, ?_⟩
  · intro k
    simp [Request.holds, hlease, hcand']
  · intro k hk
    rw [hlease, hcand'] at hk
    rw [hsame.size]
    exact h.counted.known i hi k hk
  · intro k hk
    exact h.counted.others hi (hcand'.symm.trans hk)
  · refine h.owned.keepBodies hi f hsame.size harrays (fun k _ => by rw [(hsame.entry k).1]) ?_ hgrows ?_
      ?_ hdraft ?_
    · intro k hk
      rw [hentry]
      split_ifs with hke
      · rw [hke]
        exact hbody
      · rw [TtlCache.bodyOf, TtlCache.bodyOf]
        cases hb : (c.entry k).buf with
        | none => rfl
        | some b =>
          rw [Option.bind_some, Option.bind_some, (hold b (h.owned.bufs k hk b hb).1).1]
    · intro b hb a hba
      by_cases hlt : b < c.buffers.size
      · rw [(hold b hlt).1] at hba
        exact h.owned.bodies b hlt a hba
      · exact hbodies b (by omega) hb a hba
    · intro k hk b hb
      rw [hentry] at hb
      split_ifs at hb with hke
      · rw [hke]
        exact hbuf b hb
      · exact howns k b (h.owned.bufs k hk b hb)
    · intro j hj hji
      refine h.owned.draft_other hj (h.counted.others hi hcand j hj hji) ?_ ?_
      · intro k hk
        rw [hentry, if_neg hk]
        exact ⟨rfl, rfl⟩
      · intro k _ b hown
        exact ⟨howns k b hown, (hold b hown.1).1⟩
  · have hbalanced : Balanced c' rs := by
      refine ⟨?_, hbudget ▸ hle, ?_, by rw [harrays]; exact h.balanced.capacities⟩
      · have htotal := Heap.total_modify he g CacheEntry.liveCharge
        have hchange : (g (c.entries.cell e)).liveCharge = (c.entries.cell e).liveCharge + charge := by
          have hrefs : 0 < (c.entries.cell e).refs := hlive
          rw [CacheEntry.liveCharge, CacheEntry.liveCharge, (hg _).1, if_pos hrefs, if_pos hrefs, hcharge]
        rw [hentries, htotal, hchange, harrays, hbudget, hused, h.balanced.used]
        ring
      · intro k hk
        rw [hentry]
        split_ifs with hke
        · have := h.balanced.charges e he
          rw [hcharge]
          omega
        · exact h.balanced.charges k (hsame.size ▸ hk)
    exact hbalanced.update hi f hactive

/-- The request that is admitted gets a buffer without a body. -/
theorem Accounts.attach (h : Accounts none c rs) (hi : i < rs.size)
    (hphase : (rs.cell i).phase = .admitted) (hcand : (rs.cell i).candidate = some e) (w : Writer)
    (hw : w.buf = c.buffers.size) :
    Accounts none (c.attach e) (rs.modify i (fun r => { r with phase := .producing, writer := w })) := by
  have hdraft := h.owned.drafts i hi
  simp only [Draft, hphase] at hdraft
  obtain ⟨e', he', hpub, hbuf⟩ := hdraft
  obtain rfl := Option.some.inj (hcand.symm.trans he')
  have hnew : ((c.attach e).buffer c.buffers.size).body = none ∧
      ((c.attach e).buffer c.buffers.size).entry = e := by
    simp [TtlCache.attach, TtlCache.buffer]
  have howns : (c.attach e).Owns e c.buffers.size := ⟨Nat.lt_succ_self _, hnew.2⟩
  refine h.writeEntry hi hcand (fun x => { x with buf := some c.buffers.size }) _ 0 rfl
    (fun _ => ⟨rfl, rfl⟩) (fun _ => ⟨rfl, rfl, rfl, rfl⟩) (fun _ => (add_zero _).symm) (le_refl _)
    (add_zero _).symm h.balanced.used_le (Nat.le_succ _) ?_ ?_ ?_ ?_ rfl rfl ?_ ?_ ?_
  · intro b hb
    simp [TtlCache.attach, TtlCache.buffer, hb.ne]
  · intro b hlow hhigh a hbody
    obtain rfl : b = c.buffers.size := Nat.le_antisymm (Nat.lt_succ_iff.1 hhigh) hlow
    rw [hnew.1] at hbody
    cases hbody
  · intro b hb
    exact Option.some.inj hb ▸ howns
  · simp only [TtlCache.bodyOf, Option.bind_some, hnew.1, hbuf, Option.bind_none]
  · intro a
    simp [Request.grows, hphase]
  · simp [Request.active, hphase]
  · refine ⟨e, hcand, ?_, ?_, hw ▸ howns⟩
    · simpa [TtlCache.attach, TtlCache.entry] using hpub
    · simp [TtlCache.attach, TtlCache.entry, hw]

/-! ### Publication -/

theorem TtlCache.entry_appendEntry (c : TtlCache) (e k : ℕ) :
    (c.appendEntry e).entry k =
      let x := if k = e then
          { c.entry e with expires := (c.entry e).freshness.expires, retained := true,
                           refs := (c.entry e).refs + 1, prev := c.tail, published := true }
        else c.entry k
      if c.tail = some k then { x with next := some e } else x := by
  have hlink := TtlCache.entry_linkForward (c.updateEntry e (fun x =>
    { x with expires := x.freshness.expires, retained := true, refs := x.refs + 1, prev := c.tail,
             published := true })) c.tail (some e) k
  rw [TtlCache.entry_updateEntry] at hlink
  exact hlink

theorem TtlCache.sameStore_appendEntry (c : TtlCache) (e : ℕ) : TtlCache.SameStore c (c.appendEntry e) := by
  have h := (sameStore_updateEntry c e (fun x =>
    { x with expires := x.freshness.expires, retained := true, refs := x.refs + 1, prev := c.tail,
             published := true })).trans (sameStore_linkForward _ c.tail (some e))
  exact ⟨h.budget, h.count, h.limit, h.ttl, h.buffers, h.arrays, h.size⟩

theorem TtlCache.links_appendEntry (c : TtlCache) (e : ℕ) :
    (c.appendEntry e).links = c.links.pushBack e := by
  have hnode : ∀ k, ((c.appendEntry e).entry k).prev = (c.links.pushBack e).prev k ∧
      ((c.appendEntry e).entry k).next = (c.links.pushBack e).next k := by
    intro k
    rw [entry_appendEntry]
    simp only [Links.pushBack, links]
    by_cases hk : k = e
    · subst hk
      by_cases ht : c.tail = some k <;> simp [ht]
    · by_cases ht : c.tail = some k <;> simp [ht, hk]
  have hprev : (fun k => ((c.appendEntry e).entry k).prev) = (c.links.pushBack e).prev :=
    funext (fun k => (hnode k).1)
  have hnext : (fun k => ((c.appendEntry e).entry k).next) = (c.links.pushBack e).next :=
    funext (fun k => (hnode k).2)
  have hhead : (c.appendEntry e).head = (c.links.pushBack e).head := by
    by_cases ht : c.tail = none <;>
      simp [appendEntry, updateEntry, Links.pushBack, links, ht]
  rw [links, hprev, hnext, hhead]
  rfl

theorem TtlCache.Linked.appendEntry {l : List ℕ} (h : c.Linked l) (he : e < c.entries.size)
    (hret : (c.entry e).retained = false) : (c.appendEntry e).Linked (l ++ [e]) := by
  have hnot : e ∉ l := by
    intro hmem
    rw [((h.mem e).1 hmem).2] at hret
    cases hret
  have htail : c.tail ≠ some e := by
    intro ht
    exact hnot (List.mem_of_getLast? (h.chain.tail ▸ ht))
  have hretained : ∀ k, ((c.appendEntry e).entry k).retained =
      if k = e then true else (c.entry k).retained := by
    intro k
    rw [entry_appendEntry]
    by_cases hk : k = e
    · subst hk
      simp [htail]
    · by_cases ht : c.tail = some k <;> simp [hk, ht]
  have hsize := (sameStore_appendEntry c e).size
  refine ⟨?_, ?_, ?_⟩
  · rw [links_appendEntry]
    exact h.chain.pushBack hnot (h.unlinked e he hret)
  · intro k
    rw [hsize, hretained, List.mem_append, List.mem_singleton]
    by_cases hk : k = e
    · subst hk
      simp [he]
    · simp [hk, h.mem]
  · intro k hk hkret
    rw [hretained] at hkret
    by_cases hke : k = e
    · rw [if_pos hke] at hkret
      cases hkret
    · rw [if_neg hke] at hkret
      have hk' : k < c.entries.size := hsize ▸ hk
      have ht : c.tail ≠ some k := by
        intro ht
        have hmem := (h.mem k).1 (List.mem_of_getLast? (h.chain.tail ▸ ht))
        rw [hmem.2] at hkret
        cases hkret
      rw [entry_appendEntry]
      simp [hke, ht, h.unlinked k hk' hkret]

theorem TtlCache.appendEntry_frame (c : TtlCache) (e : ℕ) :
    (∀ k, k ≠ e → ∃ n, (c.appendEntry e).entry k = { c.entry k with next := n }) ∧
      ∃ n, (c.appendEntry e).entry e = { c.entry e with
        expires := (c.entry e).freshness.expires, retained := true, refs := (c.entry e).refs + 1,
        prev := c.tail, published := true, next := n } := by
  refine ⟨fun k hk => ?_, ?_⟩
  · rw [entry_appendEntry, if_neg hk]
    split <;> exact ⟨_, rfl⟩
  · rw [entry_appendEntry, if_pos rfl]
    split <;> exact ⟨_, rfl⟩

/-- The list takes a reference to the entry that is appended to it. -/
theorem Accounts.appendEntry (h : Accounts none c rs) (hi : i < rs.size)
    (hphase : (rs.cell i).phase = .closing) (hcand : (rs.cell i).candidate = some e)
    (hret : (c.entry e).retained = false) : Accounts none (c.appendEntry e) rs := by
  obtain ⟨l, hl⟩ := h.linked
  have hlive : 0 < (c.entry e).refs := h.counted.refs_pos hi (Or.inr hcand)
  obtain ⟨hother, n, hnew⟩ := TtlCache.appendEntry_frame c e
  refine h.relink (TtlCache.sameStore_appendEntry c e)
    (hl.appendEntry (h.counted.known i hi e (Or.inr hcand)) hret) ?_ ?_ ?_ ?_
  · intro k
    by_cases hk : k = e
    · rw [hk, hnew]
      exact ⟨by dsimp only; omega, rfl, rfl, rfl⟩
    · obtain ⟨n, hk⟩ := hother k hk
      rw [hk]
      exact ⟨Iff.rfl, rfl, rfl, rfl⟩
  · intro k
    by_cases hk : k = e
    · rw [hk, hnew]
      simp [CacheEntry.byRequests, hret]
    · obtain ⟨n, hk⟩ := hother k hk
      rw [hk]
      rfl
  · intro k hk hkret
    by_cases hke : k = e
    · rw [hke, hnew]
    · obtain ⟨n, hk'⟩ := hother k hke
      rw [hk'] at hkret ⊢
      exact h.counted.published k hk hkret
  · intro j hj
    by_cases hji : j = i
    · exact Or.inl (hji ▸ hphase)
    · refine Or.inr (fun k hk => ?_)
      obtain ⟨n, hk'⟩ := hother k (fun hke => h.counted.others hi hcand j hj hji (hke ▸ hk))
      rw [hk']

end Statute.Cache
