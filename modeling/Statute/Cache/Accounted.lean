import Statute.Cache.Custody
import Statute.Cache.Writer

/-!
# The budget of the cache

Every step of the handler keeps the books, so that in every reachable state the budget is accounted
for (`cache_accounted`).
-/

namespace Statute.Cache

open Statute.Base

namespace State

variable {s : State} {i e : ℕ}

/-- The books of a state. -/
def Kept (s : State) : Prop := Accounts none s.cache s.requests

/-- The candidate of a request that produces. -/
theorem Kept.producing (h : s.Kept) (hi : i < s.requests.size) (hphase : (s.request i).phase = .producing) :
    ∃ e, (s.request i).candidate = some e ∧ s.cache.Drafting e (s.request i).writer.buf := by
  have hdraft := h.owned.drafts i hi
  rw [← State.request] at hdraft
  simp only [Draft, hphase] at hdraft
  exact hdraft

/-! ### The writer -/

/-- A producing request may write its own writer, except for the buffer it points to. -/
theorem Kept.updateWriter (h : s.Kept) (hi : i < s.requests.size)
    (hphase : (s.request i).phase = .producing) (u : Request → Writer)
    (hu : ∀ r, (u r).buf = r.writer.buf) :
    (s.update i (fun r => { r with writer := u r })).Kept := by
  obtain ⟨e, hcand, hd⟩ := h.producing hi hphase
  have hphase' : (s.requests.cell i).phase = .producing := hphase
  refine h.update hi (fun r => { r with writer := u r }) (fun _ => rfl)
    (fun k hk => h.counted.known i hi k hk) (fun _ => h.counted.others hi) (fun _ => rfl) ?_ rfl
  simp only [Draft, hphase', hu]
  exact ⟨e, hcand, hd⟩

/-- A producing request may write its buffer, except for the body and the ghost owner. -/
theorem Kept.updateBuffer (h : s.Kept) (hi : i < s.requests.size)
    (hphase : (s.request i).phase = .producing) (u : ResponseBuffer → ResponseBuffer)
    (hbody : ∀ b, (u b).body = b.body) (hentry : ∀ b, (u b).entry = b.entry) :
    (s.withCache (s.cache.updateBuffer (s.request i).writer.buf u)).Kept := by
  obtain ⟨e, hcand, hd⟩ := h.producing hi hphase
  have hbuffer : ∀ b, ((s.cache.updateBuffer (s.request i).writer.buf u).buffer b).body =
      (s.cache.buffer b).body ∧ ((s.cache.updateBuffer (s.request i).writer.buf u).buffer b).entry =
      (s.cache.buffer b).entry := by
    intro b
    rw [TtlCache.buffer_updateBuffer]
    split_ifs with hb
    · rw [hbody, hentry, hb]
      exact ⟨rfl, rfl⟩
    · exact ⟨rfl, rfl⟩
  have howns : ∀ k b, s.cache.Owns k b →
      (s.cache.updateBuffer (s.request i).writer.buf u).Owns k b := fun k b hown =>
    ⟨hown.1, (hbuffer b).2.trans hown.2⟩
  have hkept : Accounts none (s.cache.updateBuffer (s.request i).writer.buf u)
      (s.requests.modify i (fun r => r)) := by
    refine h.writeEntry hi hcand (fun x => x) (fun r => r) 0 (by rw [Heap.modify_id]; rfl)
      (fun _ => ⟨rfl, rfl⟩) (fun _ => ⟨rfl, rfl, rfl, rfl⟩) (fun _ => (add_zero _).symm)
      (le_refl _) (add_zero _).symm h.balanced.used_le (le_refl _) (fun b _ => hbuffer b)
      (fun b hb hb' => absurd hb' (not_lt.2 hb))
      (fun b hb => howns e b (h.owned.bufs e (h.counted.known i hi e (Or.inr hcand)) b hb)) ?_ rfl rfl
      (fun _ => rfl) rfl ?_
    · rw [TtlCache.bodyOf, TtlCache.bodyOf]
      cases (s.cache.entry e).buf with
      | none => rfl
      | some b => exact (hbuffer b).1
    · refine (h.owned.drafts i hi).congr (fun k _ => ⟨rfl, rfl⟩) ?_
      intro k _ b hown
      exact ⟨howns k b hown, (hbuffer b).1⟩
  rwa [Heap.modify_id] at hkept

/-- A phase in which a request has begun and no body grows. -/
def Settled (phase : Phase) : Prop := phase ≠ .waiting ∧ phase ≠ .done ∧ ∀ n a, phase ≠ .growing n a

theorem grows_of_settled {r : Request} (h : Settled r.phase) (a : ℕ) : r.grows a = 0 := by
  unfold Request.grows
  split
  · rename_i n b hphase
    exact absurd hphase (h.2.2 n b)
  · rfl

theorem active_of_settled {r : Request} (h : Settled r.phase) : r.active = 1 := by
  rw [Request.active, if_neg]
  rintro (hphase | hphase)
  · exact h.1 hphase
  · exact h.2.1 hphase

theorem Kept.setPhase (h : s.Kept) (hi : i < s.requests.size) {phase : Phase}
    (hbefore : Settled (s.request i).phase) (hafter : Settled phase)
    (hdraft : Draft s.cache { s.request i with phase := phase }) : (s.setPhase i phase).Kept := by
  refine Accounts.setPhase h hi phase hdraft ?_ ?_
  · intro a
    rw [grows_of_settled hafter, grows_of_settled (r := s.requests.cell i) hbefore]
  · rw [active_of_settled hafter, active_of_settled (r := s.requests.cell i) hbefore]

theorem settled_closing : Settled .closing := ⟨by simp, by simp, by simp⟩

/-- Unwinding keeps the books, from any settled phase. -/
theorem Kept.close (h : s.Kept) (hi : i < s.requests.size) (hbefore : Settled (s.request i).phase) :
    (s.setPhase i .closing).Kept := h.setPhase hi hbefore settled_closing trivial

variable (env : Env)

theorem Kept.capture (h : s.Kept) (hi : i < s.requests.size)
    (hphase : (s.request i).phase = .producing) (now : ℤ) (first : Option ℤ) (usable : Bool) :
    (s.capture env i now first usable).Kept := by
  unfold State.capture
  dsimp only
  split
  · exact h
  · exact h.updateWriter hi hphase _ (fun _ => rfl)

theorem Kept.startStreaming (h : s.Kept) (hi : i < s.requests.size)
    (hphase : (s.request i).phase = .producing) : (s.startStreaming i).Kept := by
  unfold State.startStreaming
  split
  · exact h
  · obtain ⟨e, hcand, hd⟩ := h.producing hi hphase
    have hphase' : (s.requests.cell i).phase = .producing := hphase
    refine Accounts.replaceBody h hi hcand hd (fun x => { x with body := none, length := 0 }) none
      (fun _ => rfl) (fun _ => rfl) (by simp) (fun r => { r with writer := { r.writer with streaming := true } })
      rfl hcand (by simp [Request.grows]) ?_ rfl ?_
    · intro n a
      simp [hphase']
    · intro c' hd'
      simp only [Draft, hphase']
      exact ⟨e, hcand, hd'⟩

theorem Kept.refuseBody (h : s.Kept) (hi : i < s.requests.size)
    (hphase : (s.request i).phase = .producing) : (s.refuseBody i).Kept :=
  (h.updateBuffer hi hphase (fun b => { b with overLimit := true }) (fun _ => rfl)
    (fun _ => rfl)).startStreaming hi hphase

theorem Kept.appendBody (h : s.Kept) (hi : i < s.requests.size)
    (hphase : (s.request i).phase = .producing) (n : ℤ) : (s.appendBody i n).Kept :=
  h.updateBuffer hi hphase (fun b => { b with length := b.length + n, wroteHeader := true })
    (fun _ => rfl) (fun _ => rfl)

theorem Kept.writeHeader (h : s.Kept) (hi : i < s.requests.size)
    (hphase : (s.request i).phase = .producing) (code : ℕ) (now : ℤ) (first : Option ℤ)
    (usable : Bool) : (s.writeHeader env i code now first usable).Kept := by
  unfold State.writeHeader
  dsimp only
  split
  · exact h
  · split
    · exact h
    · have hcapture := h.capture env hi hphase now first usable
      have hlocal := local_capture env s i now first usable hphase
      have hi' : i < (s.capture env i now first usable).requests.size := hlocal.size ▸ hi
      have hproducing := (phase_capture env s i now first usable).trans hphase
      have hbuffer := hcapture.updateBuffer hi' hproducing
        (fun b => if b.wroteHeader = true then b else { b with status := code, wroteHeader := true })
        (fun b => by split_ifs <;> rfl) (fun b => by split_ifs <;> rfl)
      rw [hlocal.buf] at hbuffer
      split
      · exact hbuffer.startStreaming hi' hproducing
      · exact hbuffer

/-- The capacity that a growing body reserves is positive. -/
theorem prepareBodyWrite_grow {b : ResponseBuffer} {oldCapacity n capacity : ℤ} (hold : 0 ≤ oldCapacity)
    (h : prepareBodyWrite b oldCapacity n = .grow capacity) : 0 ≤ capacity := by
  unfold prepareBodyWrite at h
  split at h
  · cases h
  · dsimp only at h
    split at h
    · cases h
    · have := BodyWrite.grow.inj h
      have hmax := le_max_left (b.length + n)
        (min b.maxBodyBytes (max 512 (oldCapacity + min oldCapacity (b.maxBodyBytes - oldCapacity))))
      omega

theorem Kept.capacity_nonneg (h : s.Kept) {b : ℕ} (hb : b < s.cache.buffers.size) :
    0 ≤ s.cache.capacity b := by
  unfold TtlCache.capacity
  split
  · exact le_refl _
  · rename_i a hbody
    exact h.balanced.capacities a (h.owned.bodies b hb a hbody)

theorem Kept.reserveBody (h : s.Kept) (hi : i < s.requests.size)
    (hphase : (s.request i).phase = .producing) (n : ℤ) {capacity : ℤ} (hpos : 0 ≤ capacity) :
    (s.reserveBody i n capacity).Kept := by
  unfold State.reserveBody
  split
  · exact h.refuseBody hi hphase
  · rename_i budget hreserve
    exact Accounts.growBody h hi hphase hpos hreserve

theorem Kept.write (env : Env) (h : s.Kept) (hi : i < s.requests.size)
    (hphase : (s.request i).phase = .producing) (n : ℕ) (now : ℤ) (first : Option ℤ) (usable : Bool) :
    (s.write env i n now first usable).Kept := by
  unfold State.write
  dsimp only
  split
  · exact h
  · have hcapture := h.capture env hi hphase now first usable
    have hi' : i < (s.capture env i now first usable).requests.size :=
      (local_capture env s i now first usable hphase).size ▸ hi
    have hproducing := (phase_capture env s i now first usable).trans hphase
    split
    · exact hcapture.startStreaming hi' hproducing
    · split
      · exact hcapture.refuseBody hi' hproducing
      · exact hcapture.appendBody hi' hproducing n
      · rename_i capacity hgrow
        obtain ⟨e, _, hd⟩ := hcapture.producing hi' hproducing
        exact hcapture.reserveBody hi' hproducing n
          (prepareBodyWrite_grow (hcapture.capacity_nonneg hd.owns.1) hgrow)

theorem Kept.grown (h : s.Kept) (hi : i < s.requests.size) {n : ℤ} {array : ℕ}
    (hphase : (s.request i).phase = .growing n array) : (s.grown i n array).Kept := by
  have hphase' : (s.requests.cell i).phase = .growing n array := hphase
  have hdraft := h.owned.drafts i hi
  simp only [Draft, hphase'] at hdraft
  obtain ⟨e, hcand, hd⟩ := hdraft
  have hreplaced := Accounts.replaceBody h hi hcand hd (fun x => { x with body := some array }) (some array)
    (fun _ => rfl) (fun _ => rfl)
    (fun a ha => Option.some.inj ha ▸ h.owned.growths i hi n array hphase')
    (fun r => { r with phase := .producing }) rfl hcand ?_ (by simp) ?_ ?_
  · have hkept : ((s.withCache ((s.cache.updateBuffer (s.request i).writer.buf
        (fun x => { x with body := some array })).returnArray
        (s.cache.buffer (s.request i).writer.buf).body)).setPhase i .producing).Kept := hreplaced
    exact hkept.appendBody hi (by simp [State.setPhase, State.update, State.request, State.withCache]) n
  · intro a
    simp only [Request.grows, hphase', Option.some.injEq]
    omega
  · simp [Request.active, hphase']
  · intro c' hd'
    simp only [Draft]
    exact ⟨e, hcand, hd'⟩

/-! ### Completion -/

theorem Kept.complete (h : s.Kept) (hi : i < s.requests.size)
    (hphase : (s.request i).phase = .producing) (hcand : (s.request i).candidate = some e)
    (now : ℤ) (o : Outcome) : (s.complete env i e now o).Kept := by
  have hphase' : (s.requests.cell i).phase = .producing := hphase
  obtain ⟨e', hcand', hd⟩ := h.producing hi hphase
  obtain rfl := Option.some.inj (hcand.symm.trans hcand')
  have he := h.counted.known i hi e (Or.inr hcand)
  -- the copy of the buffer shares its body, and the entry still points to the original
  have hcopied : ∀ (f : Freshness) (src : Provenance) (header : Header) (phase : Phase), Settled phase →
      (∀ c' : TtlCache, c'.Drafting e (s.request i).writer.buf → c'.Owns e s.cache.buffers.size →
        (c'.buffer s.cache.buffers.size).body = (c'.buffer (s.request i).writer.buf).body →
        Draft c' { s.request i with phase := phase }) →
      Accounts none
        { s.cache.updateEntry e (fun x => { x with freshness := f, source := some src }) with
          buffers := s.cache.buffers.alloc
            { s.cache.buffer (s.request i).writer.buf with header := header, entry := e } }
        (s.requests.modify i (fun r => { r with phase := phase })) := by
    intro f src header phase hsettled hdraft
    generalize hc' : ({ s.cache.updateEntry e (fun x => { x with freshness := f, source := some src }) with
          buffers := s.cache.buffers.alloc
            { s.cache.buffer (s.request i).writer.buf with header := header, entry := e } } : TtlCache) = c'
    have hold : ∀ b, b < s.cache.buffers.size → c'.buffer b = s.cache.buffer b := by
      intro b hb
      rw [← hc']
      simp [TtlCache.buffer, hb.ne]
    have hnew : c'.buffer s.cache.buffers.size =
        { s.cache.buffer (s.request i).writer.buf with header := header, entry := e } := by
      rw [← hc']
      simp [TtlCache.buffer]
    have hsize : c'.buffers.size = s.cache.buffers.size + 1 := by rw [← hc']; rfl
    have howns : ∀ k b, s.cache.Owns k b → c'.Owns k b := by
      intro k b hown
      refine ⟨by rw [hsize]; exact Nat.lt_succ_of_lt hown.1, ?_⟩
      rw [hold b hown.1]
      exact hown.2
    have hd' : c'.Drafting e (s.request i).writer.buf := by
      have hentry : c'.entry e = { s.cache.entry e with freshness := f, source := some src } := by
        rw [← hc']
        simp [TtlCache.entry, TtlCache.updateEntry]
      refine ⟨?_, ?_, howns _ _ hd.owns⟩
      · rw [hentry]
        exact hd.unpublished
      · rw [hentry]
        exact hd.buf
    refine h.writeEntry hi hcand (fun x => { x with freshness := f, source := some src })
      (fun r => { r with phase := phase }) 0 hc'.symm (fun _ => ⟨rfl, rfl⟩)
      (fun _ => ⟨rfl, rfl, rfl, rfl⟩) (fun _ => (add_zero _).symm) (le_refl _) (add_zero _).symm
      h.balanced.used_le (by rw [hsize]; exact Nat.le_succ _) (fun b hb => by rw [hold b hb]; exact ⟨rfl, rfl⟩) ?_
      (fun b hb => howns e b (h.owned.bufs e he b hb)) ?_ rfl rfl ?_ ?_ ?_
    · intro b hlow hhigh a hbody
      have hb : b = s.cache.buffers.size := by omega
      rw [hb, hnew] at hbody
      exact h.owned.bodies _ hd.owns.1 a hbody
    · rw [TtlCache.bodyOf, TtlCache.bodyOf]
      simp only [hd.buf, Option.bind_some]
      rw [hold _ hd.owns.1]
    · intro a
      rw [grows_of_settled hsettled, Request.grows, hphase']
    · rw [active_of_settled hsettled, Request.active, hphase']
      rfl
    · refine hdraft c' hd' ⟨by rw [hsize]; exact Nat.lt_succ_self _, by rw [hnew]⟩ ?_
      rw [hnew, hold _ hd.owns.1]
  unfold State.complete
  dsimp only
  split
  · exact hcopied _ _ _ _ settled_closing (fun _ _ _ _ => trivial)
  · split
    · rename_i names _ _
      refine hcopied _ _ _ (.delivering s.cache.buffers.size names) ⟨by simp, by simp, by simp⟩ ?_
      intro c' hd' hown hbody
      exact ⟨e, hcand, hd', hown, hbody⟩
    · exact hcopied _ _ _ _ settled_closing (fun _ _ _ _ => trivial)

theorem settled_producing {r : Request} (h : r.phase = .producing) : Settled r.phase := by
  rw [h]
  exact ⟨by simp, by simp, by simp⟩

theorem Kept.finish (h : s.Kept) (hi : i < s.requests.size)
    (hphase : (s.request i).phase = .producing) (hcand : (s.request i).candidate = some e)
    (now : ℤ) (o : Outcome) : (s.finish env i e now o).Kept := by
  unfold State.finish
  dsimp only
  have hcapture := h.capture env hi hphase now o.first o.usableAtCapture
  have hlocal := local_capture env s i now o.first o.usableAtCapture hphase
  have hi' : i < (s.capture env i now o.first o.usableAtCapture).requests.size := hlocal.size ▸ hi
  have hproducing := (phase_capture env s i now o.first o.usableAtCapture).trans hphase
  split
  · exact hcapture.close hi' (settled_producing hproducing)
  · split
    · have hlocal' := local_startStreaming (s.capture env i now o.first o.usableAtCapture) i hproducing
      refine (hcapture.startStreaming hi' hproducing).close (hlocal'.size ▸ hi') (settled_producing ?_)
      exact (phase_startStreaming _ i).trans hproducing
    · exact hcapture.complete env hi' hproducing (hlocal.candidate.trans hcand) now o

/-- **Outside the mutex.** Steps of writers keep the books. -/
theorem Kept.stepFree (h : s.Kept) {now : ℤ} {a : Action} {s' : State}
    (hsubject : ∀ i ∈ a.subject, i < s.requests.size) (hstep : s.stepFree env now a = some s') :
    s'.Kept := by
  unfold State.stepFree at hstep
  split at hstep
  · rename_i i header
    split at hstep
    · rename_i hphase
      exact Option.some.inj hstep ▸ h.updateBuffer (hsubject i rfl) hphase
        (fun b => { b with header := header }) (fun _ => rfl) (fun _ => rfl)
    · cases hstep
  · rename_i i code first usable
    split at hstep
    · rename_i hphase
      exact Option.some.inj hstep ▸ h.writeHeader env (hsubject i rfl) hphase code now first usable
    · cases hstep
  · rename_i i n first usable
    split at hstep
    · rename_i hphase
      exact Option.some.inj hstep ▸ h.write env (hsubject i rfl) hphase n now first usable
    · cases hstep
  · rename_i i
    split at hstep
    · rename_i hphase
      exact Option.some.inj hstep ▸ h.grown (hsubject i rfl) hphase
    · cases hstep
  · rename_i i
    split at hstep
    · rename_i hphase
      exact Option.some.inj hstep ▸ h.updateWriter (hsubject i rfl) hphase
        (fun r => { r.writer with noStore := true }) (fun _ => rfl)
    · cases hstep
  · rename_i i o
    split at hstep
    · rename_i hphase hcand
      exact Option.some.inj hstep ▸ h.finish env (hsubject i rfl) hphase hcand now o
    · cases hstep
  · rename_i i usable
    split at hstep
    · rename_i e hphase hlease
      have hdraft := h.owned.drafts i (hsubject i rfl)
      have hphase' : (s.requests.cell i).phase = .looked := hphase
      rw [Draft, hphase'] at hdraft
      have hbefore : Settled (s.request i).phase := by
        rw [hphase]
        exact ⟨by simp, by simp, by simp⟩
      rw [← Option.some.inj hstep]
      split
      · exact h.close (hsubject i rfl) hbefore
      · exact h.setPhase (hsubject i rfl) hbefore ⟨by simp, by simp, by simp⟩ hdraft
    · cases hstep
  · rename_i i
    obtain ⟨hmay, hstep⟩ := Option.ite_none_right_eq_some.1 hstep
    refine Option.some.inj hstep ▸ h.close (hsubject i rfl) ?_
    unfold mayUnwind at hmay
    split at hmay <;> simp_all [Settled]
  · cases hstep

/-! ### Under the mutex -/

theorem Kept.begin (h : s.Kept) (now : ℤ) (r : Request) : (s.begin now r).Kept :=
  (h.sweepLocked now).alloc _ rfl rfl rfl

theorem Kept.lookup (h : s.Kept) (hi : i < s.requests.size) (hphase : (s.request i).phase = .begun)
    (now : ℤ) (latch : Bool) (latched : ℕ → Bool) : (s.lookup i now latch latched).Kept := by
  have hphase' : (s.requests.cell i).phase = .begun := hphase
  have hdraft := h.owned.drafts i hi
  rw [Draft, hphase'] at hdraft
  have hswept := h.sweepLocked now
  unfold State.lookup
  dsimp only
  split
  · refine Accounts.setPhase hswept hi .missed hdraft.2 ?_ ?_
    · intro a
      simp [Request.grows, hphase']
    · simp [Request.active, hphase']
  · rename_i e hget
    obtain ⟨l, hl⟩ := hswept.linked
    obtain ⟨hmem, _⟩ := TtlCache.get_some hl hget
    obtain ⟨he, hret⟩ := (hl.mem e).1 hmem
    have hleased := hswept.addRef (hswept.retained_live he hret)
    refine hleased.update hi (fun r => { r with phase := .looked, lease := some e }) ?_ ?_ ?_ ?_ ?_ ?_
    · intro k
      simp [Request.holds, hdraft.1, hdraft.2]
    · intro k hk
      rcases hk with hk | hk
      · rw [← Option.some.inj hk]
        exact he
      · exact absurd (hdraft.2.symm.trans hk) (by simp)
    · exact fun _ => hswept.counted.others hi
    · intro a
      simp [Request.grows, hphase']
    · exact hdraft.2
    · simp [Request.active, hphase']

theorem Kept.enterCandidate (h : s.Kept) (hi : i < s.requests.size)
    (hphase : (s.request i).phase = .missed) (now : ℤ) : (s.enterCandidate i now).Kept := by
  have hphase' : (s.requests.cell i).phase = .missed := hphase
  have hdraft := h.owned.drafts i hi
  rw [Draft, hphase'] at hdraft
  have hevicted := (h.sweepLocked now).evict (s.cache.sweepLocked now).entries.size
  have hbefore : Settled (s.request i).phase := by
    rw [hphase]
    exact ⟨by simp, by simp, by simp⟩
  unfold State.enterCandidate
  dsimp only
  have hkept : (s.withCache ((s.cache.sweepLocked now).evict
    (s.cache.sweepLocked now).entries.size)).Kept := hevicted
  split
  · exact hkept.close hi hbefore
  · exact hkept.setPhase hi hbefore ⟨by simp, by simp, by simp⟩ hdraft

theorem Kept.attach (h : s.Kept) (hi : i < s.requests.size) (hphase : (s.request i).phase = .admitted)
    (hcand : (s.request i).candidate = some e) (now : ℤ) : (s.attach i e now).Kept :=
  (h.sweepLocked now).attach hi hphase hcand _ rfl

variable {names : List Bytes}

theorem Kept.enterPublish (h : s.Kept) (hi : i < s.requests.size) {buf : ℕ}
    (hphase : (s.request i).phase = .delivering buf names)
    (hcand : (s.request i).candidate = some e) (now : ℤ) :
    (s.enterPublish i e buf names now).Kept := by
  have hphase' : (s.requests.cell i).phase = .delivering buf names := hphase
  have hswept := h.sweepLocked now
  have hdraft := hswept.owned.drafts i hi
  simp only [Draft, hphase'] at hdraft
  obtain ⟨e', hcand', hd, hown, hbody⟩ := hdraft
  obtain rfl := Option.some.inj (hcand.symm.trans hcand')
  have hentry : (s.enterPublish i e buf names now).cache.entry e =
      { (s.cache.sweepLocked now).entry e with buf := some buf } := by
    simp [State.enterPublish, State.withLock, State.setPhase, State.update, State.withCache]
  refine hswept.writeEntry hi hcand (fun x => { x with buf := some buf })
    (fun r => { r with phase := .checking buf names }) 0 rfl
    (fun _ => ⟨rfl, rfl⟩) (fun _ => ⟨rfl, rfl, rfl, rfl⟩) (fun _ => (add_zero _).symm) (le_refl _)
    (add_zero _).symm hswept.balanced.used_le (le_refl _) (fun _ _ => ⟨rfl, rfl⟩)
    (fun b hb hb' => absurd hb' (not_lt.2 hb)) ?_ ?_ rfl rfl ?_ ?_ ?_
  · intro b hb
    rw [← Option.some.inj hb]
    exact hown
  · simp only [TtlCache.bodyOf, hd.buf, Option.bind_some]
    exact hbody
  · intro a
    simp [Request.grows, hphase']
  · simp [Request.active, hphase']
  · refine ⟨e, hcand, ?_, ?_, hown⟩
    · rw [hentry]
      exact hd.unpublished
    · rw [hentry]

/-- Giving up a reference and settling it. -/
theorem Kept.giveUp (h : s.Kept) (hi : i < s.requests.size) (f : Request → Request) (now : ℤ)
    (hold : (s.request i).lease = some e ∨ (s.request i).candidate = some e)
    (hholds : ∀ k, (f (s.request i)).holds k + (if e = k then 1 else 0) = (s.request i).holds k)
    (hlease : ∀ k, (f (s.request i)).lease = some k → (s.request i).lease = some k)
    (hcandidate : ∀ k, (f (s.request i)).candidate = some k → (s.request i).candidate = some k)
    (hphase : (f (s.request i)).phase = .closing) (hbefore : (s.request i).phase = .closing) :
    ((s.withCache ((s.cache.releaseLocked e).sweepLocked now)).update i f).Kept := by
  have hbefore' : (s.requests.cell i).phase = .closing := hbefore
  have howed : Accounts (some e) s.cache (s.requests.modify i f) := by
    refine h.update hi f ?_ ?_ (fun k hk => h.counted.others hi (hcandidate k hk)) ?_ ?_ ?_
    · intro k
      have := hholds k
      simpa [State.request] using this
    · intro k hk
      exact h.counted.known i hi k (hk.imp (hlease k) (hcandidate k))
    · intro a
      rw [State.request] at hphase
      simp [Request.grows, hphase, hbefore']
    · rw [State.request] at hphase
      simp [Draft, hphase]
    · rw [State.request] at hphase
      simp [Request.active, hphase, hbefore']
  exact (howed.releaseLocked (h.counted.known i hi e hold)).sweepLocked now

theorem Kept.finishRequest (h : s.Kept) (hi : i < s.requests.size)
    (hphase : (s.request i).phase = .closing) (hcand : (s.request i).candidate = none)
    (hlease : (s.request i).lease = none) (now : ℤ) : (s.finishRequest i now).Kept := by
  have hphase' : (s.requests.cell i).phase = .closing := hphase
  have hscratch : Accounts none
      { s.cache with budget := s.cache.budget.release cacheScratchBytes }
      (s.requests.modify i (fun r => { r with phase := .done })) := by
    refine Accounts.scratch h hi ?_ ⟨hlease, hcand⟩ ?_ ?_
    · intro a
      simp [Request.grows, hphase']
    · simp [Request.active, hphase', Budget.release]
      ring
    · have hle := h.balanced.used_le
      have hpos : 0 ≤ cacheScratchBytes := by decide
      simp only [Budget.release]
      omega
  exact hscratch.sweepLocked now

/-- The metadata of publication, the replacement of variants and the append keep the books. -/
theorem Kept.publish (h : s.Kept) (hi : i < s.requests.size) {buf : ℕ} {charge : ℤ}
    (hphase : (s.request i).phase = .publishing buf names charge)
    (hcand : (s.request i).candidate = some e) {budget : Budget}
    (hreserve : s.cache.budget.reserve charge = some budget) (key : Key) (headers : Header) :
    Accounts none
      ((((({ s.cache with budget := budget } : TtlCache).ownCopies e buf key headers names
        charge).replaceVariantsLocked e key headers)).appendEntry e)
      (s.requests.modify i (fun r => { r with phase := .closing })) := by
  have hphase' : (s.requests.cell i).phase = .publishing buf names charge := hphase
  obtain ⟨hused, hlimit, hle⟩ := Budget.reserve_some hreserve
  have hdraft := h.owned.drafts i hi
  simp only [Draft, hphase'] at hdraft
  obtain ⟨e', hcand', hd, hpos⟩ := hdraft
  obtain rfl := Option.some.inj (hcand.symm.trans hcand')
  have he := h.counted.known i hi e (Or.inr hcand)
  have hret : (s.cache.entry e).retained = false := by
    by_contra hret
    have hpub := h.counted.published e he (by simpa using hret)
    rw [hd.unpublished] at hpub
    cases hpub
  generalize hc' : ({ s.cache with budget := budget } : TtlCache).ownCopies e buf key headers names
    charge = c'
  have hnew : c'.buffer s.cache.buffers.size = { s.cache.buffer buf with entry := e } := by
    rw [← hc']
    simp [TtlCache.buffer, TtlCache.ownCopies]
  have hold : ∀ b, b < s.cache.buffers.size → c'.buffer b = s.cache.buffer b := by
    intro b hb
    rw [← hc']
    simp [TtlCache.buffer, TtlCache.ownCopies, hb.ne]
  have hsize : c'.buffers.size = s.cache.buffers.size + 1 := by rw [← hc']; rfl
  have howned : Accounts none c' (s.requests.modify i (fun r => { r with phase := .closing })) := by
    refine h.writeEntry hi hcand (fun x => { x with
      charge := x.charge + charge, key := key, vary := cacheSnapshotVary headers names,
      buf := some s.cache.buffers.size }) (fun r => { r with phase := .closing }) charge
      hc'.symm (fun _ => ⟨rfl, rfl⟩) (fun _ => ⟨rfl, rfl, rfl, rfl⟩) (fun _ => rfl) hpos hused hle
      (by rw [hsize]; exact Nat.le_succ _) (fun b hb => by rw [hold b hb]; exact ⟨rfl, rfl⟩) ?_ ?_ ?_ rfl
      rfl ?_ ?_ trivial
    · intro b hlow hhigh a hbody
      have hb : b = s.cache.buffers.size := by omega
      rw [hb, hnew] at hbody
      exact h.owned.bodies _ hd.owns.1 a hbody
    · intro b hb
      rw [← Option.some.inj hb]
      exact ⟨by rw [hsize]; exact Nat.lt_succ_self _, by rw [hnew]⟩
    · simp only [TtlCache.bodyOf, hd.buf, Option.bind_some, hnew]
    · intro a
      simp [Request.grows, hphase']
    · simp [Request.active, hphase']
  have hret' : (c'.entry e).retained = false := by
    rw [← hc']
    simpa [TtlCache.entry, TtlCache.ownCopies] using hret
  obtain ⟨l, hl⟩ := howned.linked
  refine (howned.retireWhere _ _).appendEntry (i := i) hi ?_ ?_ ?_
  · simp
  · rw [Heap.cell_modify, if_pos rfl]
    exact hcand
  · have hframe := (TtlCache.retireWhere_frame (fun old => decide (old.key = key) &&
      (!sameVary old.vary (c'.entry e).vary || varyMatches old.vary headers)) c'.entries.size hl hret').1
    exact (CacheEntry.eq_of_data CacheEntry.retained (fun _ => rfl) hframe).trans hret'

theorem Kept.granted (h : s.Kept) (hi : i < s.requests.size) {n : ℤ} (hamount : amount (s.request i) = some n)
    (hroom : (s.request i).phase = .admitting → s.cache.count < s.cache.limit) {budget : Budget}
    (hreserve : s.cache.budget.reserve n = some budget) :
    ((s.withCache { s.cache with budget := budget }).granted i).Kept := by
  obtain ⟨hused, hlimit, hle⟩ := Budget.reserve_some hreserve
  have hdraft := h.owned.drafts i hi
  rw [← State.request] at hdraft
  unfold amount at hamount
  split at hamount
  · rename_i hphase
    obtain rfl := Option.some.inj hamount
    have hphase' : (s.requests.cell i).phase = .waiting := hphase
    rw [Draft, hphase] at hdraft
    have hgranted : (s.withCache { s.cache with budget := budget }).granted i =
        ((s.withCache { s.cache with budget := budget }).setPhase i .begun).withLock none := by
      unfold State.granted
      have hphase'' : ((s.withCache { s.cache with budget := budget }).request i).phase = .waiting := hphase
      simp only [hphase'']
    rw [hgranted]
    refine Accounts.scratch h hi ?_ hdraft ?_ hle
    · intro a
      simp [Request.grows, hphase']
    · rw [hused]
      simp [Request.active, hphase']
  · rename_i hphase
    obtain rfl := Option.some.inj hamount
    have hgranted : (s.withCache { s.cache with budget := budget }).granted i =
        (((s.withCache ({ s.cache with budget := budget } : TtlCache).newCandidate)).update i (fun r =>
          { r with phase := .admitted, candidate := some s.cache.entries.size })).withLock none := by
      unfold State.granted
      have hphase'' : ((s.withCache { s.cache with budget := budget }).request i).phase = .admitting :=
        hphase
      simp only [hphase'']
      rfl
    rw [hgranted]
    exact Accounts.newCandidate h hi hphase (hroom hphase) hreserve
  · rename_i buf names charge hphase
    obtain rfl := Option.some.inj hamount
    have hcandidate : ∃ e, (s.request i).candidate = some e := by
      simp only [Draft, hphase] at hdraft
      exact ⟨_, hdraft.choose_spec.1⟩
    obtain ⟨e, hcand⟩ := hcandidate
    have hphase'' : ((s.withCache { s.cache with budget := budget }).request i).phase =
        .publishing buf names charge := hphase
    have hcand'' : ((s.withCache { s.cache with budget := budget }).request i).candidate = some e := hcand
    unfold State.granted
    simp only [hphase'', hcand'']
    exact h.publish hi hphase hcand hreserve _ _
  · cases hamount

theorem Kept.refused (h : s.Kept) (hi : i < s.requests.size) {n : ℤ}
    (hamount : amount (s.request i) = some n) : (s.refused i).Kept := by
  have hdraft := h.owned.drafts i hi
  rw [← State.request] at hdraft
  unfold State.refused
  unfold amount at hamount
  split at hamount
  · rename_i hphase
    have hphase' : (s.requests.cell i).phase = .waiting := hphase
    rw [Draft, hphase] at hdraft
    simp only [hphase]
    refine Accounts.setPhase h hi .done hdraft ?_ ?_
    · intro a
      simp [Request.grows, hphase']
    · simp [Request.active, hphase']
  · rename_i hphase
    simp only [hphase]
    exact h.close hi (by rw [hphase]; exact ⟨by simp, by simp, by simp⟩)
  · rename_i hphase
    simp only [hphase]
    exact h.close hi (by rw [hphase]; exact ⟨by simp, by simp, by simp⟩)
  · cases hamount

theorem Kept.reserveLocked (h : s.Kept) (hi : i < s.requests.size) {n : ℤ}
    (hamount : amount (s.request i) = some n)
    (hroom : (s.request i).phase = .admitting → s.cache.count < s.cache.limit) :
    (s.reserveLocked i n).Kept := by
  unfold State.reserveLocked
  split
  · rename_i budget hreserve
    exact h.granted hi hamount hroom hreserve
  · split
    · exact h.refused hi hamount
    · rename_i e hhead
      obtain ⟨l, hl⟩ := h.linked
      exact Accounts.retireLocked h hl (hl.chain.head_mem hhead)

theorem Kept.check (h : s.Kept) (hi : i < s.requests.size) {buf : ℕ}
    (hphase : (s.request i).phase = .checking buf names) (now : ℤ) (latched : Bool) :
    (s.check i e buf names now latched).Kept := by
  have hbefore : Settled (s.request i).phase := by
    rw [hphase]
    exact ⟨by simp, by simp, by simp⟩
  have hclosed : ((s.setPhase i .closing).withLock none).Kept := h.close hi hbefore
  have hdraft := h.owned.drafts i hi
  rw [← State.request] at hdraft
  simp only [Draft, hphase] at hdraft
  obtain ⟨e', hcand, hd⟩ := hdraft
  unfold State.check
  dsimp only
  split
  · exact hclosed
  · split
    · exact hclosed
    · rename_i charge hcharge
      split
      · exact hclosed
      · refine h.setPhase hi hbefore ⟨by simp, by simp, by simp⟩ ?_
        exact ⟨e', hcand, hd, cacheMetadataCost_nonneg hcharge⟩

/-! ### Whole runs -/

/-- The books of a state whose mutex is held by a request it knows, with room for the candidate that
is being admitted. -/
structure Books (s : State) : Prop where
  kept : s.Kept
  locked : ∀ i, s.lock = some i → i < s.requests.size
  room : ∀ i, s.lock = some i → (s.request i).phase = .admitting → s.cache.count < s.cache.limit

theorem Books.of_unlocked (h : s.Kept) (hlock : s.lock = none) : s.Books :=
  ⟨h, fun i hi => absurd (hlock.symm.trans hi) (by simp), fun i hi => absurd (hlock.symm.trans hi) (by simp)⟩

theorem Books.of_locked (h : s.Kept) (hlock : s.lock = some i) (hi : i < s.requests.size)
    (hroom : (s.request i).phase = .admitting → s.cache.count < s.cache.limit) : s.Books := by
  refine ⟨h, ?_, ?_⟩
  · intro k hk
    exact Option.some.inj (hlock.symm.trans hk) ▸ hi
  · intro k hk
    exact Option.some.inj (hlock.symm.trans hk) ▸ hroom

theorem Books.stepFree (h : s.Books) {now : ℤ} {a : Action} {s' : State}
    (hsubject : ∀ i ∈ a.subject, i < s.requests.size) (hstep : s.stepFree env now a = some s') :
    s'.Books := by
  obtain ⟨i, _, hlocal⟩ := stepFree_local env hstep
  refine ⟨h.kept.stepFree env hsubject hstep, ?_, ?_⟩
  · intro k hk
    rw [hlocal.size]
    exact h.locked k (hlocal.lock ▸ hk)
  · intro k hk hphase
    rw [hlocal.count, hlocal.limit]
    refine h.room k (hlocal.lock ▸ hk) ?_
    by_cases hki : k = i
    · subst hki
      exact hlocal.admitting hphase
    · rwa [hlocal.others k hki] at hphase

theorem Books.enterCandidate (h : s.Books) (hlock : s.lock = none) (hi : i < s.requests.size)
    (hphase : (s.request i).phase = .missed) (now : ℤ) : (s.enterCandidate i now).Books := by
  have hkept := h.kept.enterCandidate hi hphase now
  unfold State.enterCandidate at hkept ⊢
  dsimp only at hkept ⊢
  split at hkept
  · rename_i hfull
    rw [if_pos hfull]
    exact Books.of_unlocked hkept hlock
  · rename_i hroom
    rw [if_neg hroom]
    exact Books.of_locked hkept rfl hi (fun _ => not_le.1 hroom)

/-- **Taking the mutex.** -/
theorem Books.stepLocking (h : s.Books) (hlock : s.lock = none) {now : ℤ} {a : Action} {s' : State}
    (hsubject : ∀ i ∈ a.subject, i < s.requests.size) (hstep : s.stepLocking now a = some s') :
    s'.Books := by
  unfold State.stepLocking at hstep
  split at hstep
  · rename_i r
    rw [← Option.some.inj hstep]
    refine Books.of_locked (h.kept.begin now r) rfl (Nat.lt_succ_self _) ?_
    simp [State.begin, State.request]
  · rename_i i eligible latch latched
    have hi := hsubject i rfl
    split at hstep
    · rename_i hphase
      split at hstep
      · rw [← Option.some.inj hstep]
        refine Books.of_unlocked (h.kept.lookup hi hphase now latch latched) ?_
        unfold State.lookup
        dsimp only
        split <;> exact hlock
      · rw [← Option.some.inj hstep]
        exact Books.of_unlocked (h.kept.close hi (by rw [hphase]; exact ⟨by simp, by simp, by simp⟩)) hlock
    · cases hstep
  · rename_i i
    split at hstep
    · rename_i hphase
      exact Option.some.inj hstep ▸ h.enterCandidate hlock (hsubject i rfl) hphase now
    · cases hstep
  · rename_i i
    split at hstep
    · rename_i hphase hcand
      rw [← Option.some.inj hstep]
      exact Books.of_unlocked (h.kept.attach (hsubject i rfl) hphase hcand now) hlock
    · cases hstep
  · rename_i i
    split at hstep
    · rename_i buf names e hphase hcand
      rw [← Option.some.inj hstep]
      refine Books.of_locked (h.kept.enterPublish (hsubject i rfl) hphase hcand now) rfl
        (hsubject i rfl) ?_
      simp [State.enterPublish, State.withLock, State.setPhase, State.update, State.withCache,
        State.request]
    · cases hstep
  · rename_i i
    split at hstep
    · rename_i e hphase hcand
      rw [← Option.some.inj hstep]
      refine Books.of_unlocked (h.kept.giveUp (hsubject i rfl) (fun r => { r with candidate := none }) now
        (Or.inr hcand) ?_ (fun _ hk => hk) (fun k hk => by cases hk) hphase hphase) hlock
      intro k
      simp [Request.holds, hcand]
    · rename_i e hphase hcand hlease
      rw [← Option.some.inj hstep]
      refine Books.of_unlocked (h.kept.giveUp (hsubject i rfl) (fun r => { r with lease := none }) now
        (Or.inl hlease) ?_ (fun k hk => by cases hk) (fun _ hk => hk) hphase hphase) hlock
      intro k
      simp [Request.holds, hcand, hlease]
    · cases hstep
  · rename_i i
    split at hstep
    · rename_i hphase hcand hlease
      rw [← Option.some.inj hstep]
      exact Books.of_unlocked (h.kept.finishRequest (hsubject i rfl) hphase hcand hlease now) hlock
    · cases hstep
  · cases hstep

/-- A round of a reservation loop gives the mutex back, or retires an entry and goes on. -/
theorem reserveLocked_frame (s : State) (i : ℕ) (n : ℤ) :
    (s.reserveLocked i n).lock = none ∨
      ((s.reserveLocked i n).lock = s.lock ∧ (s.reserveLocked i n).requests = s.requests ∧
        (s.reserveLocked i n).cache.count ≤ s.cache.count ∧
        (s.reserveLocked i n).cache.limit = s.cache.limit) := by
  unfold State.reserveLocked
  split
  · unfold State.granted
    dsimp only
    split
    · exact Or.inl rfl
    · exact Or.inl rfl
    · exact Or.inl rfl
    · exact Or.inr ⟨rfl, rfl, le_refl _, rfl⟩
  · split
    · left
      unfold State.refused
      split <;> rfl
    · rename_i e _
      exact Or.inr ⟨rfl, rfl, TtlCache.count_retireLocked_le s.cache e,
        (TtlCache.retireLocked_frame s.cache e).1⟩

/-- The checks of `publish` give the mutex back, or go on to its reservation. -/
theorem check_frame (s : State) (i e buf : ℕ) (names : List Bytes) (now : ℤ) (latched : Bool) :
    (s.check i e buf names now latched).lock = none ∨
      ((s.check i e buf names now latched).lock = s.lock ∧
        (s.check i e buf names now latched).requests.size = s.requests.size ∧
        ((s.check i e buf names now latched).request i).phase ≠ .admitting) := by
  unfold State.check
  dsimp only
  split
  · exact Or.inl rfl
  · split
    · exact Or.inl rfl
    · split
      · exact Or.inl rfl
      · exact Or.inr ⟨rfl, rfl, by simp [State.setPhase, State.update, State.request]⟩

/-- **Holding the mutex.** -/
theorem Books.stepLocked (h : s.Books) (hlock : s.lock = some i) {now : ℤ} {a : Action} {s' : State}
    (hstep : s.stepLocked i now a = some s') : s'.Books := by
  have hi := h.locked i hlock
  unfold State.stepLocked at hstep
  split at hstep
  · split at hstep
    · rename_i n hamount
      rw [← Option.some.inj hstep]
      have hkept := h.kept.reserveLocked hi hamount (h.room i hlock)
      rcases reserveLocked_frame s i n with hfree | ⟨hsame, hrequests, hcount, hlimit⟩
      · exact Books.of_unlocked hkept hfree
      · refine Books.of_locked hkept (hsame.trans hlock) (hrequests ▸ hi) ?_
        intro hphase
        rw [State.request, hrequests] at hphase
        have hroom := h.room i hlock hphase
        omega
    · cases hstep
  · rename_i latched
    split at hstep
    · rename_i buf names e hphase hcand
      rw [← Option.some.inj hstep]
      have hkept := h.kept.check (e := e) hi hphase now latched
      rcases check_frame s i e buf names now latched with hfree | ⟨hsame, hsize, hne⟩
      · exact Books.of_unlocked hkept hfree
      · exact Books.of_locked hkept (hsame.trans hlock) (hsize ▸ hi) (fun hphase => absurd hphase hne)
    · cases hstep
  · cases hstep

/-- **One step.** Every step of the handler keeps the books. -/
theorem Books.step (env : Env) (h : s.Books) {a : ℤ × Action} {s' : State}
    (hstep : s.step env a = some s') : s'.Books := by
  obtain ⟨hguard, hstep⟩ := Option.ite_none_left_eq_some.1 hstep
  have hsubject : ∀ i ∈ a.2.subject, i < s.requests.size := by
    intro i hi
    by_contra hlt
    exact hguard (Or.inr ⟨i, hi, not_lt.1 hlt⟩)
  have hclock : ({ s with clock := a.1 } : State).Books := ⟨h.kept, h.locked, h.room⟩
  dsimp only at hstep
  split at hstep
  · rename_i t ht
    exact Option.some.inj hstep ▸ hclock.stepFree env hsubject ht
  · split at hstep
    · rename_i hlock
      exact hclock.stepLocking hlock hsubject hstep
    · rename_i i hlock
      exact hclock.stepLocked hlock hstep

end State

/-- A cache that holds nothing has nothing to account for. -/
theorem accounts_new (ttl entries body budget : ℤ) :
    Accounts none (newBoundedTTLCache ttl entries body budget) (Heap.empty : Heap Request) where
  linked := ⟨[], Links.Chain.nil _ rfl rfl, fun e => by simp [newBoundedTTLCache, Heap.empty],
    fun e he => absurd he (Nat.not_lt_zero e)⟩
  counted :=
    { count := by simp [newBoundedTTLCache]
      count_le := by
        simp only [newBoundedTTLCache, defaultCacheMaxEntries]
        split_ifs <;> omega
      refs := fun e he => absurd he (Nat.not_lt_zero e)
      once := fun e he => absurd he (Nat.not_lt_zero e)
      known := fun i hi => absurd hi (Nat.not_lt_zero i)
      alone := fun i hi => absurd hi (Nat.not_lt_zero i)
      published := fun e he => absurd he (Nat.not_lt_zero e) }
  owned :=
    { arrays := fun a ha => absurd ha (Nat.not_lt_zero a)
      bodies := fun b hb => absurd hb (Nat.not_lt_zero b)
      growths := fun i hi => absurd hi (Nat.not_lt_zero i)
      bufs := fun e he => absurd he (Nat.not_lt_zero e)
      drafts := fun i hi => absurd hi (Nat.not_lt_zero i) }
  balanced :=
    { used := by simp [newBoundedTTLCache, newResponseBufferBudget]
      used_le := by
        simp only [newBoundedTTLCache, newResponseBufferBudget, defaultResponseBufferBudgetBytes]
        split_ifs <;> omega
      charges := fun e he => absurd he (Nat.not_lt_zero e)
      capacities := fun a ha => absurd ha (Nat.not_lt_zero a) }

/-- **The books.** Every reachable state of the handler keeps them. -/
theorem books_reachable {env : Env} {ttl entries body budget : ℤ} {s : State}
    (h : (cacheHandler env ttl entries body budget).Reachable s) : s.Books := by
  refine h.invariant ?_ (fun _ _ _ _ hbooks hstep => hbooks.step env hstep)
  rintro t ⟨hcache, hrequests, hlock⟩
  refine State.Books.of_unlocked ?_ hlock
  rw [State.Kept, hcache, hrequests]
  exact accounts_new ttl entries body budget

/-- **The budget of the cache.** In every reachable state the budget has handed out the scratch of the
requests that began and did not end, the charges of the entries with references, and the arrays that
were not returned; it is within its limit.  The count is that of the entries with references.  The
list holds the retained entries.  An array is returned when it is behind neither a referenced entry nor
a growing body, and once; so is the charge of an entry, when its last reference goes. -/
theorem cache_accounted {env : Env} {ttl entries body budget : ℤ} {s : State}
    (h : (cacheHandler env ttl entries body budget).Reachable s) :
    s.cache.budget.used = cacheScratchBytes * s.requests.total Request.active +
        s.cache.entries.total CacheEntry.liveCharge + s.cache.arrays.total BodyArray.liveCapacity ∧
      0 ≤ s.cache.budget.used ∧ s.cache.budget.used ≤ s.cache.budget.limit ∧
      s.cache.count = s.cache.entries.total CacheEntry.live ∧ s.cache.count ≤ s.cache.limit ∧
      (∃ l, s.cache.links.Chain l ∧
        ∀ e, e ∈ l ↔ e < s.cache.entries.size ∧ (s.cache.entry e).retained = true) ∧
      (∀ e, e < s.cache.entries.size →
        (s.cache.entry e).refs = s.requests.total (Request.holds e) +
          (if (s.cache.entry e).retained = true then 1 else 0) ∧
        (s.cache.entry e).returns = if 0 < (s.cache.entry e).refs then 0 else 1) ∧
      ∀ a, a < s.cache.arrays.size → ((s.cache.arrays.cell a).returns : ℤ) =
        1 - s.cache.entries.total (s.cache.bodyHolds a) - s.requests.total (Request.grows a) := by
  obtain ⟨hlinked, hcounted, howned, hbalanced⟩ := (books_reachable h).kept
  obtain ⟨l, hl⟩ := hlinked
  refine ⟨hbalanced.used, ?_, hbalanced.used_le, hcounted.count, hcounted.count_le,
    ⟨l, hl.chain, hl.mem⟩, ?_, ?_⟩
  · have hscratch : 0 ≤ cacheScratchBytes * s.requests.total Request.active :=
      mul_nonneg (by decide) (Heap.total_nonneg (fun i _ => Request.active_nonneg _))
    have hcharges : 0 ≤ s.cache.entries.total CacheEntry.liveCharge := by
      refine Heap.total_nonneg (fun e he => ?_)
      rw [CacheEntry.liveCharge]
      split_ifs
      · exact hbalanced.charges e he
      · exact le_refl _
    have hcapacities : 0 ≤ s.cache.arrays.total BodyArray.liveCapacity := by
      refine Heap.total_nonneg (fun a ha => ?_)
      rw [BodyArray.liveCapacity]
      split_ifs
      · exact hbalanced.capacities a ha
      · exact le_refl _
    rw [hbalanced.used]
    omega
  · intro e he
    have hrefs := hcounted.refs e he
    have honce := hcounted.once e he
    simp only [reduceCtorEq, if_false, add_zero] at hrefs
    refine ⟨hrefs, ?_⟩
    rw [CacheEntry.live] at honce
    split_ifs at honce ⊢ <;> omega
  · intro a ha
    have hone := howned.arrays a ha
    omega

/-- After one response was stored, the budget holds its body, its entry and its metadata. -/
theorem cache_accounted_storeResponse : ∃ s, smallHandler.Reachable s ∧ s.cache.budget.used = 2287 ∧
    s.cache.count = 1 ∧ s.cache.count = s.cache.entries.total CacheEntry.live ∧
    s.cache.budget.used ≤ s.cache.budget.limit := by
  have hrun : (smallHandler.run emptyHandler storeResponse).map
      (fun s => (s.cache.budget.used, s.cache.count)) = some (2287, 1) := by decide
  obtain ⟨s, hs, hused⟩ := Option.map_eq_some_iff.1 hrun
  obtain ⟨hused, hcount⟩ := Prod.ext_iff.1 hused
  have hreachable := smallHandler_start.run hs
  obtain ⟨_, _, hle, hlive, _⟩ := cache_accounted hreachable
  exact ⟨s, hreachable, hused, hcount, hlive, hle⟩

end Statute.Cache
