import Statute.Lifecycle.Settlement

/-!
# Idle stops and requests

An idle stop is installed on a container without activity.  While it converges, requests arrive, waiters
of earlier activations wake up, the container is observed, and the stop may be retried for as long as its
outcome is unknown.  No section raises an activity counter in that time (`active_le`), so that no request
has a lease on the container that is being stopped (`idle_stop_spares`).
-/

namespace Statute.Lifecycle

open Statute.Base

namespace Workload

variable {w w' : Workload} {env : Env} {stop : Stop}

/-- The current binding is the same and no activity counter is higher. -/
def Calmer (w w' : Workload) : Prop := w'.key = w.key ∧ ∀ k, w'.active k ≤ w.active k

theorem Calmer.refl (w : Workload) : Calmer w w := ⟨rfl, fun _ => le_refl _⟩

theorem Calmer.of_ledger (h : w'.ledger = w.ledger) : Calmer w w' :=
  ⟨congrArg Ledger.key h, fun k => (congrFun (congrArg Ledger.active h) k).le⟩

theorem update_sub_one_le (active : ℕ → ℤ) (lease k : ℕ) :
    Function.update active lease (active lease + -1) k ≤ active k := by
  rw [Function.update_apply]
  split
  · rename_i hk
    rw [hk]
    omega
  · exact le_refl _

theorem calmer_endLease (w : Workload) (env : Env) (lease : ℕ) : Calmer w (w.endLease env lease) := by
  have hended : Calmer w { w.addActive lease (-1) with leases := w.leases.erase lease } :=
    ⟨rfl, update_sub_one_le w.active lease⟩
  unfold endLease
  dsimp only
  split
  · exact hended
  · obtain ⟨epoch, idle, hframe⟩ := armIdleLocked_frame env
      { w.addActive lease (-1) with leases := w.leases.erase lease }
    rw [hframe]
    exact hended

theorem calmer_finishWaiting (w : Workload) (env : Env) (wait : Wait) (claim : Bool) :
    Calmer w (w.finishWaiting env wait claim).1 := by
  by_cases hreserved : wait.reserved = 0
  · rw [finishWaiting_unreserved hreserved]
    exact .refl w
  · obtain ⟨epoch, idle, hfinish⟩ := finishWaiting_reserved env w claim hreserved
    rw [hfinish]
    refine ⟨rfl, fun k => ?_⟩
    dsimp only
    split
    · exact le_refl _
    · exact update_sub_one_le w.active wait.lease k

theorem calmer_leaveWait {claim : Bool} {wait : WaitRef} (h : w.leaveWait env claim wait = some w') :
    Calmer w w' := by
  unfold leaveWait at h
  -- the three places a wait can be found at
  split at h <;> split at h <;> try cases h
  all_goals
    obtain ⟨_, h⟩ := Option.ite_none_left_eq_some.1 h
    exact Option.some.inj h ▸ w.calmer_finishWaiting env _ claim

/-- A request that comes while a stop is there waits for it or is refused. -/
theorem calmer_serveState (hphase : w.phase.stopping = true) (env : Env) (expected : ℕ) :
    Calmer w (w.serveState env expected) := by
  unfold serveState serveCurrentStateLocked
  split
  · exact .refl w
  · cases h : w.phase with
    | stopIssued => exact ⟨rfl, fun _ => le_refl _⟩
    | stopUnknown => exact .refl w
    | dormant | starting | ready | stopPending | failed => rw [h] at hphase; cases hphase

theorem bindWorkloadContainerLocked_same {key : ℕ} {id : Bytes} (hbound : w.binding.isSome = true)
    (hsame : w.sameContainer id = true) : w.bindWorkloadContainerLocked key id = (w, false) := by
  obtain ⟨b, hb⟩ := Option.isSome_iff_exists.1 hbound
  rw [bindWorkloadContainerLocked]
  simp [hb, hsame]

/-- An observation keeps the binding of an unsettled stop. -/
theorem calmer_prepareObservation (h : w.Coherent) (hstop : w.stop = some stop) (env : Env) (key : ℕ)
    (id : Bytes) (running : Bool) : Calmer w (w.prepareObservation env key id running).1 := by
  unfold prepareObservation
  split
  · exact .of_ledger (ledger_retire w)
  · rename_i hother
    split
    · exact .refl w
    · obtain ⟨hsame, hbinding⟩ := Coherent.unretireLocked_frame w
      have hphase := h.unretireLocked.stop_phase (hsame.trans hstop)
      have hcontainer := sameContainer_of_prepare h hother (by simp [hstop])
      rw [sameContainer, ← hbinding] at hcontainer
      unfold observeWorkloadLocked
      rw [bindWorkloadContainerLocked_same (hbinding ▸ h.stop_bound hstop) hcontainer]
      dsimp only
      split
      · unfold observeRunningWorkloadLocked
        refine .of_ledger ?_
        cases hnext : w.unretireLocked.phase with
        | stopIssued | stopUnknown => simp
        | dormant | starting | ready | stopPending | failed => rw [hnext] at hphase; cases hphase
      · exact .of_ledger (by simp)

theorem calmer_performStop (w : Workload) (binding epoch : ℕ) : Calmer w (w.performStop binding epoch).1 := by
  unfold performStop newStopLocked
  obtain ⟨phase, refused, hframe⟩ := w.moveTo_frame .stopIssued
  obtain ⟨phase', refused', hframe'⟩ := w.moveTo_frame .ready
  rw [hframe, hframe']
  split
  · exact .refl w
  · split
    · exact ⟨rfl, fun _ => le_refl _⟩
    · dsimp only
      split <;> exact ⟨rfl, fun _ => le_refl _⟩

/-- **One section.** While a stop is there, no section raises an activity counter. -/
theorem active_le {a : Action} {effects : List Effect} (h : w.Coherent) (hstop : w.stop = some stop)
    (hstep : w.step env a = some (w', effects)) (hkept : w'.stop.isSome = true) : Calmer w w' := by
  have hphase := h.stop_phase hstop
  have hnone : w.activation = none := h.activation_none (fun hp => by rw [hp] at hphase; cases hphase)
  cases step_move hstep with
  | serveState binding => exact calmer_serveState hphase env binding
  | finishWaiting hleft => exact calmer_leaveWait hleft
  | endLease => exact w.calmer_endLease env _
  | performStop binding epoch => exact w.calmer_performStop binding epoch
  | probe hact | settleActivation hact => rw [hnone] at hact; cases hact
  | runner hsame hrunner hmove =>
    cases hmove.converge h hsame hrunner with
    | settle result => rw [stop_settleStopLocked] at hkept; cases hkept
    | begin | known | write | stored | unstored | commit | defer | reapply | attempt | invoke | doubt
    | answer | mark | ambiguous | doubtful | terminal | recorded | delete | undeleted | retry | cease
    | finish => exact ⟨rfl, fun _ => le_refl _⟩
  | prepareObservation _ id running => exact calmer_prepareObservation h hstop env _ id running
  | retire => exact .of_ledger (ledger_retire w)
  | claimIdleStop | revokeIdleStop | reconcileRetired | appendRetiredRef | resume | stopIdle =>
    exact .of_ledger (by simp)

end Workload

/-! ### Whole runs -/

/-- The counter of the binding is zero as long as an idle stop is there. -/
theorem idle_active_reachable {w : Workload} (h : workloadMachine.Reachable w) :
    ∀ stop, w.stop = some stop → stop.kind = .idle → w.active w.key = 0 := by
  refine h.invariant (P := fun w => ∀ stop, w.stop = some stop → stop.kind = .idle → w.active w.key = 0)
    ?_ ?_
  · rintro w (⟨service, hadBinding, failures, failedUntil, rfl⟩ | ⟨service, kind, key, id, rfl⟩)
    · rintro _ ⟨⟩
    · exact fun _ _ _ => rfl
  · rintro w ⟨env, a⟩ w' hreach hw hstep stop hstop hidle
    have hafter := accounted_reachable (hreach.step _ hstep)
    obtain ⟨⟨next, effects⟩, hnext, rfl⟩ := Option.map_eq_some_iff.1 hstep
    have hcoherent := coherent_reachable hreach
    have hidentity : next.stopIdentity = some stop.identity := by
      rw [Workload.stopIdentity, hstop]
      rfl
    have hzero : Workload.Calmer w next → w.active w.key = 0 → next.active next.key = 0 := by
      rintro ⟨hkey, hle⟩ hbefore
      have hnonneg := hafter.active_nonneg next.key
      rw [hkey] at hnonneg ⊢
      exact le_antisymm (hbefore ▸ hle w.key) hnonneg
    cases Workload.stop_change hcoherent (accounted_reachable hreach) hnext with
    | kept hkept =>
      obtain ⟨before, hbefore, hsame⟩ := Option.map_eq_some_iff.1 (hkept.symm.trans hidentity)
      have hkind : before.kind = stop.kind := congrArg (fun id => id.2.1) hsame
      exact hzero (Workload.active_le hcoherent hbefore hnext (by rw [hstop]; rfl))
        (hw before hbefore (hkind.trans hidle))
    | @idle binding epoch _ hphase _ =>
      obtain ⟨rfl, _⟩ := Prod.ext_iff.1 (Option.some.inj hnext)
      exact hzero (w.calmer_performStop binding epoch) (hcoherent.pending hphase)
    | cleanup _ hnew =>
      rw [hidentity] at hnew
      have hkind : stop.kind = .cleanup := congrArg (fun id => id.2.1) (Option.some.inj hnew)
      exact absurd (hidle.symm.trans hkind) (by simp)
    | settled _ _ hnone => exact absurd (hnone.symm.trans hstop) (by simp)

/-- **Idle stops spare requests.**  In every interleaving of a workload's sections, from the section that
installs an idle stop, or restores it from disk, to the one that settles it, however often it is retried:
no request has a lease on the container that is being stopped, and no waiter has one reserved that it
could still claim. -/
theorem idle_stop_spares {w : Workload} (h : workloadMachine.Reachable w) {stop : Stop}
    (hstop : w.stop = some stop) (hidle : stop.kind = .idle) :
    stop.binding = w.key ∧ stop.binding ∉ w.leases ∧
      ∀ wait ∈ w.closed, wait.lease = stop.binding → wait.reserved = 0 := by
  have hw := accounted_reachable h
  have hbinding := ((coherent_reachable h).stop stop hstop).binding
  obtain ⟨hleases, hreserved⟩ := (hw.active_eq_zero_iff w.key).1 (idle_active_reachable h stop hstop hidle)
  rw [hbinding]
  refine ⟨rfl, hleases, fun wait hwait hlease => ?_⟩
  by_contra hne
  have hpos := reservations_pos hw.closed hwait hne
  rw [hlease] at hpos
  have hsum : reservations w.closed w.key = 0 := hreserved
  omega

theorem idle_stop_spares_idleRun : ∃ w stop, workloadMachine.Reachable w ∧ w.stop = some stop ∧
    stop.kind = .idle ∧ stop.binding = w.key ∧ stop.binding ∉ w.leases ∧
      ∀ wait ∈ w.closed, wait.lease = stop.binding → wait.reserved = 0 := by
  have hstart : workloadMachine.Reachable (.registered (lit "web") false 0 0) :=
    .start (Or.inl ⟨_, _, _, _, rfl⟩)
  -- a request comes while the stop is there
  have hreach := hstart.run (show workloadMachine.run _ (idleRun ++
    [(running, .performStop 1 1), (running, .serveState 1)]) = some _ from rfl)
  exact ⟨_, _, hreach, rfl, rfl, idle_stop_spares hreach rfl rfl⟩

end Statute.Lifecycle
