import Statute.Cache.Handler
import Statute.Cache.Retained

/-!
# What a writer can touch

Outside the mutex of the cache a request only touches itself, its candidate and the buffer of its
writer (`stepFree_local`).  Every invariant of the handler uses this for the requests and entries that
a step is not about.
-/

namespace Statute.Cache

open Statute.Base

namespace State

variable {s s' s'' : State} {i : ℕ}

/-- A step of request `i` that touches no other request, no entry but its candidate, of which only the
freshness and the provenance, and no existing buffer but that of its writer. -/
structure Local (i : ℕ) (s s' : State) : Prop where
  lock : s'.lock = s.lock
  clock : s'.clock = s.clock
  size : s'.requests.size = s.requests.size
  others : ∀ k, k ≠ i → s'.request k = s.request k
  self : ∃ p w, s'.request i = { s.request i with phase := p, writer := w } ∧
    w.buf = (s.request i).writer.buf ∧ w.requested = (s.request i).writer.requested
  admitting : (s'.request i).phase = .admitting → (s.request i).phase = .admitting
  count : s'.cache.count = s.cache.count
  limit : s'.cache.limit = s.cache.limit
  ttl : s'.cache.ttl = s.cache.ttl
  entries : s'.cache.entries.size = s.cache.entries.size
  entry : ∀ e, ∃ f src, s'.cache.entry e = { s.cache.entry e with freshness := f, source := src } ∧
    ((s.request i).candidate ≠ some e → f = (s.cache.entry e).freshness ∧ src = (s.cache.entry e).source)
  buffers : s.cache.buffers.size ≤ s'.cache.buffers.size
  buffer : ∀ b, b < s.cache.buffers.size → b ≠ (s.request i).writer.buf →
    s'.cache.buffer b = s.cache.buffer b

theorem Local.candidate (h : Local i s s') : (s'.request i).candidate = (s.request i).candidate := by
  obtain ⟨p, w, hself, _⟩ := h.self
  rw [hself]

theorem Local.buf (h : Local i s s') : (s'.request i).writer.buf = (s.request i).writer.buf := by
  obtain ⟨p, w, hself, hbuf, _⟩ := h.self
  rw [hself]
  exact hbuf

theorem Local.refl (i : ℕ) (s : State) : Local i s s where
  lock := rfl
  clock := rfl
  size := rfl
  others _ _ := rfl
  self := ⟨_, _, rfl, rfl, rfl⟩
  admitting := id
  count := rfl
  limit := rfl
  ttl := rfl
  entries := rfl
  entry _ := ⟨_, _, rfl, fun _ => ⟨rfl, rfl⟩⟩
  buffers := le_refl _
  buffer _ _ _ := rfl

theorem Local.trans (h : Local i s s') (h' : Local i s' s'') : Local i s s'' where
  lock := h'.lock.trans h.lock
  clock := h'.clock.trans h.clock
  size := h'.size.trans h.size
  others k hk := (h'.others k hk).trans (h.others k hk)
  self := by
    obtain ⟨p, w, hself, hbuf, hreq⟩ := h.self
    obtain ⟨p', w', hself', hbuf', hreq'⟩ := h'.self
    rw [hself] at hself' hbuf' hreq'
    exact ⟨p', w', hself', hbuf'.trans hbuf, hreq'.trans hreq⟩
  admitting hphase := h.admitting (h'.admitting hphase)
  count := h'.count.trans h.count
  limit := h'.limit.trans h.limit
  ttl := h'.ttl.trans h.ttl
  entries := h'.entries.trans h.entries
  entry e := by
    obtain ⟨f, src, hentry, hother⟩ := h.entry e
    obtain ⟨f', src', hentry', hother'⟩ := h'.entry e
    rw [hentry] at hentry' hother'
    refine ⟨f', src', hentry', fun he => ?_⟩
    obtain ⟨hf', hsrc'⟩ := hother' (by rw [h.candidate]; exact he)
    exact ⟨hf'.trans (hother he).1, hsrc'.trans (hother he).2⟩
  buffers := h.buffers.trans h'.buffers
  buffer b hb hne :=
    (h'.buffer b (lt_of_lt_of_le hb h.buffers) (by rw [h.buf]; exact hne)).trans (h.buffer b hb hne)

/-- A request that changes its phase and its writer. -/
theorem local_update (s : State) (i : ℕ) (f : Request → Request)
    (hf : ∃ p w, f (s.request i) = { s.request i with phase := p, writer := w } ∧
      w.buf = (s.request i).writer.buf ∧ w.requested = (s.request i).writer.requested)
    (hphase : (f (s.request i)).phase ≠ .admitting) : Local i s (s.update i f) := by
  have hself : (s.update i f).request i = f (s.request i) := by simp [update, request]
  refine { Local.refl i s with
    size := rfl
    others := fun k hk => by simp [update, request, hk]
    self := hself ▸ hf
    admitting := fun h => absurd (hself ▸ h) hphase }

/-- A request that writes its own buffer. -/
theorem local_updateBuffer (s : State) (i : ℕ) (u : ResponseBuffer → ResponseBuffer) :
    Local i s (s.withCache (s.cache.updateBuffer (s.request i).writer.buf u)) :=
  { Local.refl i s with
    buffers := le_refl _
    buffer := fun b _ hb => by simp [withCache, hb] }

theorem local_returnArray (s : State) (i : ℕ) (a : Option ℕ) :
    Local i s (s.withCache (s.cache.returnArray a)) := by
  obtain ⟨hlimit, httl, hcount, _⟩ := TtlCache.limits_returnArray s.cache a
  refine { Local.refl i s with
    count := hcount
    limit := hlimit
    ttl := httl
    entries := by simp [withCache]
    entry := fun e => ⟨(s.cache.entry e).freshness, (s.cache.entry e).source, ?_, fun _ => ⟨rfl, rfl⟩⟩
    buffers := by simp [withCache]
    buffer := fun b _ _ => by simp [withCache, TtlCache.buffer] }
  simp [withCache, TtlCache.entry]

theorem local_setPhase (s : State) (i : ℕ) {phase : Phase} (hphase : phase ≠ .admitting) :
    Local i s (s.setPhase i phase) :=
  local_update s i _ ⟨_, _, rfl, rfl, rfl⟩ hphase

variable (env : Env)

theorem local_capture (s : State) (i : ℕ) (now : ℤ) (first : Option ℤ) (usable : Bool)
    (hphase : (s.request i).phase = .producing) : Local i s (s.capture env i now first usable) := by
  unfold capture
  dsimp only
  split
  · exact Local.refl i s
  · exact local_update s i _ ⟨_, _, rfl, rfl, rfl⟩ (by simp [hphase])

theorem local_startStreaming (s : State) (i : ℕ) (hphase : (s.request i).phase = .producing) :
    Local i s (s.startStreaming i) := by
  unfold startStreaming
  split
  · exact Local.refl i s
  · refine ((local_updateBuffer s i (fun x => { x with body := none, length := 0 })).trans
      (local_returnArray _ i (s.cache.buffer (s.request i).writer.buf).body)).trans ?_
    exact local_update _ i _ ⟨_, _, rfl, rfl, rfl⟩
      (fun hadmitting => Phase.noConfusion (hphase.symm.trans hadmitting))

theorem local_refuseBody (s : State) (i : ℕ) (hphase : (s.request i).phase = .producing) :
    Local i s (s.refuseBody i) :=
  (local_updateBuffer s i _).trans (local_startStreaming _ i hphase)

theorem local_appendBody (s : State) (i : ℕ) (n : ℤ) : Local i s (s.appendBody i n) :=
  local_updateBuffer s i _

/-- What stays producing after the freshness was captured. -/
theorem phase_capture (s : State) (i : ℕ) (now : ℤ) (first : Option ℤ) (usable : Bool) :
    ((s.capture env i now first usable).request i).phase = (s.request i).phase := by
  unfold capture
  dsimp only
  split
  · rfl
  · simp [update, request]

theorem phase_startStreaming (s : State) (i : ℕ) :
    ((s.startStreaming i).request i).phase = (s.request i).phase := by
  unfold startStreaming
  split
  · rfl
  · simp [update, withCache, request]

theorem local_writeHeader (s : State) (i code : ℕ) (now : ℤ) (first : Option ℤ) (usable : Bool)
    (hphase : (s.request i).phase = .producing) :
    Local i s (s.writeHeader env i code now first usable) := by
  unfold writeHeader
  dsimp only
  split
  · exact Local.refl i s
  · split
    · exact Local.refl i s
    · have hcapture := local_capture env s i now first usable hphase
      have hwritten := local_updateBuffer (s.capture env i now first usable) i
        (fun b => if b.wroteHeader = true then b else { b with status := code, wroteHeader := true })
      rw [hcapture.buf] at hwritten
      split
      · refine (hcapture.trans hwritten).trans (local_startStreaming _ i ?_)
        exact (phase_capture env s i now first usable).trans hphase
      · exact hcapture.trans hwritten

theorem local_reserveBody (s : State) (i : ℕ) (n capacity : ℤ)
    (hphase : (s.request i).phase = .producing) : Local i s (s.reserveBody i n capacity) := by
  unfold reserveBody
  split
  · exact local_refuseBody s i hphase
  · rename_i budget _
    have hreserved : Local i s (s.withCache
        { s.cache with budget := budget, arrays := s.cache.arrays.alloc { capacity := capacity } }) :=
      { Local.refl i s with }
    exact hreserved.trans (local_setPhase _ i (by simp))

theorem local_write (s : State) (i n : ℕ) (now : ℤ) (first : Option ℤ) (usable : Bool)
    (hphase : (s.request i).phase = .producing) : Local i s (s.write env i n now first usable) := by
  unfold write
  dsimp only
  split
  · exact Local.refl i s
  · have hcapture := local_capture env s i now first usable hphase
    have hproducing := (phase_capture env s i now first usable).trans hphase
    split
    · exact hcapture.trans (local_startStreaming _ i hproducing)
    · split
      · exact hcapture.trans (local_refuseBody _ i hproducing)
      · exact hcapture.trans (local_appendBody _ i _)
      · exact hcapture.trans (local_reserveBody _ i _ _ hproducing)

theorem local_grown (s : State) (i : ℕ) (n : ℤ) (array : ℕ) : Local i s (s.grown i n array) := by
  have htaken := ((local_updateBuffer s i (fun x => { x with body := some array })).trans
    (local_returnArray _ i (s.cache.buffer (s.request i).writer.buf).body)).trans
    (local_setPhase _ i (by simp : Phase.producing ≠ .admitting))
  exact htaken.trans (local_appendBody _ i n)

theorem local_complete (s : State) (i e : ℕ) (now : ℤ) (o : Outcome)
    (hcand : (s.request i).candidate = some e) : Local i s (s.complete env i e now o) := by
  have hwritten : ∀ (f : Freshness) (src : Provenance) (b : ResponseBuffer), Local i s (s.withCache
      { s.cache.updateEntry e (fun x => { x with freshness := f, source := some src }) with
        buffers := s.cache.buffers.alloc b }) := by
    intro f src b
    refine { Local.refl i s with
      entries := rfl
      entry := fun k => ?_
      buffers := Nat.le_succ _
      buffer := fun k hk _ => by simp [withCache, TtlCache.buffer, hk.ne] }
    by_cases hk : k = e
    · subst hk
      exact ⟨f, some src, by simp [withCache, TtlCache.entry, TtlCache.updateEntry], fun h => absurd hcand h⟩
    · refine ⟨(s.cache.entry k).freshness, (s.cache.entry k).source, ?_, fun _ => ⟨rfl, rfl⟩⟩
      simp [withCache, TtlCache.entry, TtlCache.updateEntry, hk]
  unfold complete
  dsimp only
  split
  · exact (hwritten _ _ _).trans (local_setPhase _ i (by simp))
  · split
    · exact (hwritten _ _ _).trans (local_setPhase _ i (by simp))
    · exact (hwritten _ _ _).trans (local_setPhase _ i (by simp))

theorem local_finish (s : State) (i e : ℕ) (now : ℤ) (o : Outcome)
    (hphase : (s.request i).phase = .producing) (hcand : (s.request i).candidate = some e) :
    Local i s (s.finish env i e now o) := by
  unfold finish
  dsimp only
  have hcapture := local_capture env s i now o.first o.usableAtCapture hphase
  have hproducing := (phase_capture env s i now o.first o.usableAtCapture).trans hphase
  split
  · exact hcapture.trans (local_setPhase _ i (by simp))
  · split
    · exact (hcapture.trans (local_startStreaming _ i hproducing)).trans (local_setPhase _ i (by simp))
    · exact hcapture.trans (local_complete env _ i e now o (hcapture.candidate.trans hcand))

/-- **Writers are local.** A step outside the mutex is one of the request it is about. -/
theorem stepFree_local {now : ℤ} {a : Action} (h : s.stepFree env now a = some s') :
    ∃ i ∈ a.subject, Local i s s' := by
  unfold stepFree at h
  split at h
  · rename_i i header
    split at h
    · exact ⟨i, rfl, Option.some.inj h ▸ local_updateBuffer s i _⟩
    · cases h
  · rename_i i code first usable
    split at h
    · rename_i hphase
      exact ⟨i, rfl, Option.some.inj h ▸ local_writeHeader env s i code now first usable hphase⟩
    · cases h
  · rename_i i n first usable
    split at h
    · rename_i hphase
      exact ⟨i, rfl, Option.some.inj h ▸ local_write env s i n now first usable hphase⟩
    · cases h
  · rename_i i
    split at h
    · exact ⟨i, rfl, Option.some.inj h ▸ local_grown s i _ _⟩
    · cases h
  · rename_i i
    split at h
    · rename_i hphase
      exact ⟨i, rfl, Option.some.inj h ▸ local_update s i _ ⟨_, _, rfl, rfl, rfl⟩ (by simp [hphase])⟩
    · cases h
  · rename_i i o
    split at h
    · rename_i hphase hcand
      exact ⟨i, rfl, Option.some.inj h ▸ local_finish env s i _ now o hphase hcand⟩
    · cases h
  · rename_i i usable
    split at h
    · refine ⟨i, rfl, Option.some.inj h ▸ local_setPhase s i ?_⟩
      split_ifs <;> simp
    · cases h
  · rename_i i
    obtain ⟨_, h⟩ := Option.ite_none_right_eq_some.1 h
    exact ⟨i, rfl, Option.some.inj h ▸ local_setPhase s i (by simp)⟩
  · cases h

end State

end Statute.Cache
