import Statute.Lifecycle.Coherence

/-!
# How a stop begins and ends

Who installs a stop and who takes it away.  A stop keeps its identity (its place among the workload's
stops, its kind and its binding) through every section but two: `performStop` and a failed activation
install one where there was none, and only the settlement of its own goroutine removes it.

* `Tended`: what the sections outside its convergence do to a stop.
* `stop_move`, `stop_change`: what a section can do to the stop of a coherent workload.
* `activity_accounted`: the result about activity.
-/

namespace Statute.Lifecycle

open Statute.Base

/-- What stays of a stop from its installation to its settlement. -/
def Stop.identity (stop : Stop) : ℕ × StopKind × ℕ := (stop.serial, stop.kind, stop.binding)

/-- What the sections outside its convergence do to a stop: requests join and leave its wait, a
goroutine begins where none converges, and an observation is recorded while no attempt is out. -/
inductive Tended : Option Stop → Option Stop → Prop
  | refl (s : Option Stop) : Tended s s
  | wait {s : Option Stop} {stop : Stop} (h : Tended s (some stop)) (wait : Wait) :
      Tended s (some { stop with wait := wait })
  | ensure {s : Option Stop} {stop : Stop} (h : Tended s (some stop))
      (hidle : stop.converging = false) :
      Tended s (some { stop with converging := true, runners := stop.runners ++ [.starting] })
  | observed {s : Option Stop} {stop : Stop} (h : Tended s (some stop))
      (hissued : stop.issued = false) :
      Tended s (some { stop with terminal := true, result := .succeeded })

theorem Tended.of_eq {s t : Option Stop} (h : t = s) : Tended s t := h ▸ .refl s

theorem Tended.identity {s t : Option Stop} (h : Tended s t) :
    t.map Stop.identity = s.map Stop.identity := by
  induction h with
  | refl => rfl
  | wait _ _ ih | ensure _ _ ih | observed _ _ ih => exact ih

namespace Workload

def stopIdentity (w : Workload) : Option (ℕ × StopKind × ℕ) := w.stop.map Stop.identity

/-! ### Sections that keep the stop -/

variable (env : Env) (w : Workload)

@[simp] theorem stop_armIdleLocked : (w.armIdleLocked env).stop = w.stop := by
  obtain ⟨epoch, idle, hframe⟩ := w.armIdleLocked_frame env
  rw [hframe]

@[simp] theorem stop_stopIdleLocked : w.stopIdleLocked.stop = w.stop := by
  obtain ⟨phase, refused, epoch, hframe⟩ := w.stopIdleLocked_frame
  rw [hframe]

theorem stop_toLocked (next : Phase) : (w.toLocked next).1.stop = w.stop := by
  unfold toLocked transitionLocked
  split_ifs <;> rfl

theorem stop_settleStopLocked (stop : Stop) (result : StopResult) :
    (w.settleStopLocked env stop result).stop = none := by
  unfold settleStopLocked
  split
  · rfl
  · rfl
  · rfl

theorem stop_beginActivationLocked (observe : Bool) :
    (w.beginActivationLocked env observe).1.stop = w.stop := by
  have hto := w.stop_toLocked .starting
  unfold beginActivationLocked
  dsimp only
  split
  · rfl
  · split
    · rfl
    · split
      · exact hto
      · rw [stop_moveTo]
        exact hto

theorem stop_beginAndWait (observe : Bool) : (w.beginAndWait env observe).stop = w.stop := by
  have hbegin := w.stop_beginActivationLocked env observe
  unfold beginAndWait
  dsimp only
  split
  · exact hbegin
  · exact hbegin

theorem tended_serveState (expected : ℕ) : Tended w.stop (w.serveState env expected).stop := by
  unfold serveState
  split
  · exact .refl _
  · unfold serveCurrentStateLocked
    split
    · exact .refl _
    · exact .of_eq (w.stop_moveTo .ready)
    · split
      · exact .refl _
      · exact .of_eq (stop_beginAndWait env _ _)
    · exact .of_eq (stop_beginAndWait env _ _)
    · exact .refl _
    · cases hstop : w.stop with
      | none => exact .of_eq (by simp)
      | some stop => exact .wait (.refl _) _
    · exact .refl _

theorem tended_ensureStopConvergenceLocked {s : Option Stop} (h : Tended s w.stop) :
    Tended s (w.ensureStopConvergenceLocked env).stop := by
  unfold ensureStopConvergenceLocked
  split
  · exact h
  · rename_i stop hstop
    split
    · exact h
    · rename_i hidle
      simp only [Bool.or_eq_true, not_or, Bool.not_eq_true] at hidle
      exact .ensure (hstop ▸ h) hidle.1

theorem tended_recordObservedStopLocked (hissued : ∀ stop ∈ w.stop, stop.issued = false) :
    Tended w.stop (w.recordObservedStopLocked env).1.stop := by
  unfold recordObservedStopLocked
  split
  · exact .refl _
  · rename_i stop hstop
    refine tended_ensureStopConvergenceLocked env _ ?_
    rw [hstop]
    exact .observed (.refl _) (hissued stop hstop)

theorem stop_retire : w.retire.stop = w.stop := by
  rw [retire, stop_stopIdleLocked]

theorem stop_bindWorkloadContainerLocked {w : Workload} (h : w.Coherent) (key : ℕ) (id : Bytes)
    (hsame : w.stop.isSome = true → w.sameContainer id = true) :
    (w.bindWorkloadContainerLocked key id).1.stop = w.stop := by
  unfold bindWorkloadContainerLocked
  split
  · rfl
  · split
    · rename_i hother
      have hstop : w.stop = none := by
        by_contra hstop
        have hsame := hsame (Option.isSome_iff_ne_none.2 hstop)
        simp [hsame] at hother
      have hphase := (h.supersedeBindingLocked hstop).2
      have hnone := (h.supersedeBindingLocked hstop).1.stop_none
        (by rcases hphase with hphase | hphase <;> rw [hphase] <;> rfl)
      exact hnone.trans hstop.symm
    · rfl

theorem tended_observeRunningWorkloadLocked {s : Option Stop} (h : Tended s w.stop)
    (replaced : Bool) : Tended s (w.observeRunningWorkloadLocked env replaced).stop := by
  have hbegin : ∀ w' : Workload, w'.stop = w.stop →
      Tended s (w'.beginActivationLocked env true).1.stop :=
    fun w' hw' => by rw [stop_beginActivationLocked, hw']; exact h
  unfold observeRunningWorkloadLocked
  split
  case h_1 | h_2 => exact w.tended_ensureStopConvergenceLocked env h
  case h_3 => exact hbegin w rfl
  case h_4 =>
    split
    · exact h
    · exact hbegin _ rfl
  case h_5 | h_6 | h_7 => exact h

theorem tended_observeStoppedWorkloadLocked :
    Tended w.stop (w.observeStoppedWorkloadLocked env).1.stop := by
  unfold observeStoppedWorkloadLocked
  split
  case h_1 | h_2 => exact .of_eq (by simp)
  case h_3 | h_4 =>
    split
    · exact .refl _
    · rename_i stop hstop
      split
      · exact .refl _
      · refine w.tended_recordObservedStopLocked env ?_
        simp_all
  case h_5 | h_6 | h_7 => exact .refl _

/-- An unsettled stop is detached or kept, never superseded. -/
theorem sameContainer_of_prepare {w : Workload} (h : w.Coherent) {id : Bytes}
    (hother : ¬ w.ownsMutationForOther id = true) (hstop : w.stop.isSome = true) :
    w.sameContainer id = true := by
  obtain ⟨stop, hstop⟩ := Option.isSome_iff_exists.1 hstop
  have hunsettled : w.hasUnsettledStop = true := by
    rw [hasUnsettledStop, hstop, h.stop_phase hstop]
    rfl
  simpa [ownsMutationForOther, hunsettled, h.stop_bound hstop] using hother

theorem tended_prepareObservation {w : Workload} (h : w.Coherent) (env : Env) (key : ℕ)
    (id : Bytes) (running : Bool) :
    Tended w.stop (w.prepareObservation env key id running).1.stop := by
  unfold prepareObservation
  split
  · exact .of_eq w.stop_retire
  · rename_i hother
    split
    · exact .refl _
    · obtain ⟨hstop, hbinding⟩ := Coherent.unretireLocked_frame w
      have hbind : (w.unretireLocked.bindWorkloadContainerLocked key id).1.stop = w.stop := by
        rw [stop_bindWorkloadContainerLocked h.unretireLocked, hstop]
        rw [hstop, sameContainer, hbinding]
        exact sameContainer_of_prepare h hother
      unfold observeWorkloadLocked
      dsimp only
      split
      · exact tended_observeRunningWorkloadLocked env _ (.of_eq hbind) _
      · exact hbind ▸ tended_observeStoppedWorkloadLocked env _

theorem tended_reconcileRetired (running : Bool) :
    Tended w.stop (w.reconcileRetired env running).1.stop := by
  unfold reconcileRetired
  split
  · exact .refl _
  · rename_i stop hstop
    split
    · exact .refl _
    · refine w.tended_recordObservedStopLocked env ?_
      simp_all

theorem tended_appendRetiredRef : Tended w.stop (w.appendRetiredRef env).stop := by
  unfold appendRetiredRef
  split
  · exact w.tended_ensureStopConvergenceLocked env (.refl _)
  · exact .refl _

theorem tended_resume (armIdle : Bool) : Tended w.stop (w.resume env armIdle).stop := by
  have harmed : Tended w.stop (if armIdle && !w.retired && w.phase == .ready then
      w.armIdleLocked env else w).stop := by
    split
    · exact .of_eq (w.stop_armIdleLocked env)
    · exact .refl _
  have hensured : ∀ v : Workload, Tended w.stop v.stop → Tended w.stop
      (if v.hasUnsettledStop then v.ensureStopConvergenceLocked env else v).stop := by
    intro v hv
    split
    · exact v.tended_ensureStopConvergenceLocked env hv
    · exact hv
  exact hensured _ harmed

variable {w' : Workload}

/-- A request that leaves a wait finds the stop as it is, its wait apart. -/
theorem tended_leaveWait {w : Workload} {env : Env} {claim : Bool} {wait : WaitRef}
    (hw : w.Accounted) (hleave : w.leaveWait env claim wait = some w') :
    Tended w.stop w'.stop := by
  cases wait with
  | activation =>
    simp only [leaveWait] at hleave
    split at hleave
    · cases hleave
    · rename_i act hact
      obtain ⟨-, heq⟩ := Option.ite_none_left_eq_some.1 hleave
      rw [finishWaiting_unreserved (hw.activation hact).unreserved] at heq
      obtain rfl := Option.some.inj heq
      exact .refl _
  | stop =>
    simp only [leaveWait] at hleave
    split at hleave
    · cases hleave
    · rename_i stop hstop
      obtain ⟨-, heq⟩ := Option.ite_none_left_eq_some.1 hleave
      rw [finishWaiting_unreserved (hw.stop hstop).unreserved] at heq
      obtain rfl := Option.some.inj heq
      exact hstop ▸ .wait (.refl _) _
  | closed n =>
    simp only [leaveWait] at hleave
    split at hleave
    · cases hleave
    · rename_i wait hwait
      obtain ⟨-, heq⟩ := Option.ite_none_left_eq_some.1 hleave
      by_cases hreserved : wait.reserved = 0
      · rw [finishWaiting_unreserved hreserved] at heq
        obtain rfl := Option.some.inj heq
        exact .refl _
      · obtain ⟨epoch, idle, hfinish⟩ := finishWaiting_reserved env w claim hreserved
        rw [hfinish] at heq
        obtain rfl := Option.some.inj heq
        exact .refl _

theorem tended_endLease (lease : ℕ) : Tended w.stop (w.endLease env lease).stop := by
  unfold endLease
  dsimp only
  split
  · exact .refl _
  · exact .of_eq (stop_armIdleLocked env _)

theorem tended_claimIdleStop (binding epoch : ℕ) :
    Tended w.stop (w.claimIdleStop binding epoch).stop := by
  unfold claimIdleStop
  split
  · exact .refl _
  · exact .of_eq (stop_moveTo _ _)

theorem tended_revokeIdleStop (binding epoch : ℕ) :
    Tended w.stop (w.revokeIdleStop binding epoch).stop := by
  unfold revokeIdleStop
  split
  · exact .of_eq (stop_moveTo _ _)
  · exact .refl _

/-! ### What a section does to the stop -/

inductive StopChange (w : Workload) : Action → Workload → Prop
  /-- The stop is the one it was, or there is still none. -/
  | kept {a : Action} {w' : Workload} (h : w'.stopIdentity = w.stopIdentity) : StopChange w a w'
  /-- An idle stop is installed on a binding without activity. -/
  | idle {binding epoch : ℕ} {w' : Workload} (hphase : w.phase = .stopPending)
      (hnew : w'.stopIdentity = some (w.stops, .idle, w.key)) :
      StopChange w (.performStop binding epoch) w'
  /-- A failed activation installs its cleanup. -/
  | cleanup {ended : Ended} {w' : Workload} (hphase : w.phase = .starting)
      (hnew : w'.stopIdentity = some (w.stops, .cleanup, w.key)) :
      StopChange w (.settleActivation ended) w'
  /-- The goroutine of the stop settles it, after its record was deleted. -/
  | settled {n : ℕ} {stop : Stop} {result : StopResult} {w' : Workload} (hstop : w.stop = some stop)
      (hrunner : stop.runners = [.settling w.ownedID result true]) (hnone : w'.stop = none) :
      StopChange w (.runner n .settle) w'

/-- What a section does to the stop, with what the goroutine of a stop does spelled out. -/
inductive StopMove (env : Env) (w : Workload) : Action → Workload → List Effect → Prop
  | tended {a : Action} {w' : Workload} {effects : List Effect} (h : Tended w.stop w'.stop) :
      StopMove env w a w' effects
  | idle {binding epoch : ℕ} {w' : Workload} {effects : List Effect}
      (hphase : w.phase = .stopPending) (hnew : w'.stop = (w.installed .idle w.key).stop) :
      StopMove env w (.performStop binding epoch) w' effects
  | cleanup {ended : Ended} {w' : Workload} {effects : List Effect} (hphase : w.phase = .starting)
      (hnew : w'.stop = (w.installed .cleanup w.key).stop) :
      StopMove env w (.settleActivation ended) w' effects
  | converge {n : ℕ} {stop : Stop} {runner : Runner} {next : RunnerStep} {w' : Workload}
      {effects : List Effect} (hstop : w.stop = some stop) (hrunners : stop.runners = [runner])
      (h : Converge env w stop runner next w' effects) :
      StopMove env w (.runner n next) w' effects

theorem stopIdentity_runnerAt {w : Workload} {stop next : Stop} (hstop : w.stop = some stop)
    (hnext : next.identity = stop.identity) (runner : Runner) :
    (w.runnerAt next runner).stopIdentity = w.stopIdentity := by
  rw [stopIdentity, stopIdentity, hstop]
  exact congrArg some hnext

theorem Converge.stop_change {w : Workload} {env : Env} {stop : Stop} {n : ℕ} {runner : Runner}
    {next : RunnerStep} {effects : List Effect} (hstop : w.stop = some stop)
    (hrunners : stop.runners = [runner]) (hstep : Converge env w stop runner next w' effects) :
    StopChange w (.runner n next) w' := by
  have hkeep : ∀ {next : Stop} {runner : Runner}, next.identity = stop.identity →
      (w.runnerAt next runner).stopIdentity = w.stopIdentity :=
    fun hnext => stopIdentity_runnerAt hstop hnext _
  have hunsettle : ∀ {next : Stop}, next.identity = stop.identity →
      (w.unsettled next).stopIdentity = w.stopIdentity := by
    intro next hnext
    rw [stopIdentity, stopIdentity, hstop]
    exact congrArg some hnext
  cases hstep with
  | begin | known | write | stored | unstored | commit | reapply | attempt | invoke | doubt | answer
  | mark | terminal | recorded | delete | retry | cease => exact .kept (hkeep rfl)
  | defer | ambiguous | doubtful | undeleted => exact .kept (hunsettle rfl)
  | settle result =>
    exact .settled hstop hrunners (stop_settleStopLocked env _ _ result)
  | finish =>
    refine .kept ?_
    rw [stopIdentity, stopIdentity, hstop]
    rfl

/-- An activation that ends well, is cancelled or was only observed leaves no stop. -/
theorem settleActivation_move {w : Workload} {env : Env} {act : Activation} (h : w.Coherent)
    (hact : w.activation = some act) (ended : Ended) (effects : List Effect) :
    StopMove env w (.settleActivation ended) (w.settleActivation env act ended).1 effects := by
  have hphase := h.activation_phase hact
  have hfail : StopMove env w (.settleActivation ended)
      { (w.invalidate.failActivation env act).1 with
        activation := none
        closed := { act.wait with failed := ended != .ready } ::
          (w.invalidate.failActivation env act).1.closed } effects := by
    have hstart : w.invalidate.Coherent := h.congr rfl rfl rfl rfl rfl rfl rfl
    have hfailed := hstart.failActivation_eq env hact
    rw [hfailed]
    split
    · exact .cleanup hphase rfl
    · exact .tended (.refl _)
  have hdormant : StopMove env w (.settleActivation ended) { w.invalidate.moveTo .dormant with
      activation := none
      closed := { act.wait with failed := ended != .ready } ::
        (w.invalidate.moveTo .dormant).closed } effects :=
    .tended (.of_eq (stop_moveTo w.invalidate .dormant))
  unfold settleActivation
  cases ended with
  | ready =>
    refine .tended (.of_eq ?_)
    obtain ⟨active, hreserve⟩ := Coherent.reserveWaitersLocked_frame
      (w.invalidate.moveTo .ready).clearFailureLocked
      { act.wait with failed := Ended.ready != .ready }
    dsimp only
    rw [hreserve, stop_armIdleLocked]
    exact stop_moveTo w.invalidate .ready
  | cancelled => exact hdormant
  | stopped =>
    dsimp only
    split
    · exact hdormant
    · exact hfail
  | failed => exact hfail

theorem performStop_move {w : Workload} (h : w.Coherent) (env : Env) (binding epoch : ℕ)
    (effects : List Effect) :
    StopMove env w (.performStop binding epoch) (w.performStop binding epoch).1 effects := by
  unfold performStop
  split
  · exact .tended (.refl _)
  · rename_i hperform
    simp only [Bool.or_eq_true, bne_iff_ne, not_or, not_not] at hperform
    have hphase := hperform.1.1.1
    split
    · exact .tended (.of_eq (stop_moveTo _ _))
    · refine .idle hphase ?_
      rw [install_eq w (h.stop_none (by rw [hphase]; rfl)) (by simp [hphase, Phase.transitions])]

theorem stop_move {w : Workload} {env : Env} {a : Action} {effects : List Effect}
    (h : w.Coherent) (hw : w.Accounted) (hstep : w.step env a = some (w', effects)) :
    StopMove env w a w' effects := by
  cases step_move hstep with
  | serveState binding => exact .tended (w.tended_serveState env binding)
  | finishWaiting hleft => exact .tended (tended_leaveWait hw hleft)
  | endLease => exact .tended (w.tended_endLease env _)
  | claimIdleStop binding epoch => exact .tended (w.tended_claimIdleStop binding epoch)
  | revokeIdleStop binding epoch => exact .tended (w.tended_revokeIdleStop binding epoch)
  | performStop binding epoch => exact performStop_move h env binding epoch _
  | probe => exact .tended (.refl _)
  | settleActivation hact => exact settleActivation_move h hact _ _
  | runner hstop hrunner hmove =>
    exact .converge hstop ((h.stop _ hstop).sole hrunner).2.1 (hmove.converge h hstop hrunner)
  | prepareObservation _ id running => exact .tended (tended_prepareObservation h env _ id running)
  | retire => exact .tended (.of_eq w.stop_retire)
  | reconcileRetired running => exact .tended (w.tended_reconcileRetired env running)
  | appendRetiredRef => exact .tended (w.tended_appendRetiredRef env)
  | resume armIdle => exact .tended (w.tended_resume env armIdle)
  | stopIdle => exact .tended (.of_eq w.stop_stopIdleLocked)

/-- Every section keeps the stop, installs one where there was none, or settles it. -/
theorem stop_change {w : Workload} {env : Env} {a : Action} {effects : List Effect}
    (h : w.Coherent) (hw : w.Accounted) (hstep : w.step env a = some (w', effects)) :
    StopChange w a w' := by
  cases stop_move h hw hstep with
  | tended htended => exact .kept htended.identity
  | idle hphase hnew => exact .idle hphase (by rw [stopIdentity, hnew]; rfl)
  | cleanup hphase hnew => exact .cleanup hphase (by rw [stopIdentity, hnew]; rfl)
  | converge hstop hrunners hconverge => exact hconverge.stop_change hstop hrunners

/-! ### Activity -/

/-- A wait that is settled holds one reservation for each of its requests. -/
theorem reserveWaitersLocked_reserves {wait : Wait} (hwait : wait.Opened) :
    (w.reserveWaitersLocked wait).2.requests = wait.requests ∧
      (w.reserveWaitersLocked wait).2.reserved = wait.requests := by
  have hcounted := hwait.counted
  have hreserved := hwait.unreserved
  unfold reserveWaitersLocked
  split
  · refine ⟨rfl, ?_⟩
    dsimp only
    omega
  · exact ⟨rfl, hcounted⟩

/-- The wait of an activation that ends ready is closed with its reservations. -/
theorem settleActivation_reserves {w : Workload} (hw : w.Accounted) (env : Env) {act : Activation}
    (hact : w.activation = some act) : ∃ wait, (w.settleActivation env act .ready).1.closed =
      wait :: w.closed ∧ wait.requests = act.wait.requests ∧ wait.reserved = wait.requests := by
  have hwait : ({ act.wait with failed := Ended.ready != .ready } : Wait).Opened :=
    ⟨(hw.activation hact).counted, (hw.activation hact).unreserved, (hw.activation hact).unleased⟩
  obtain ⟨hrequests, hreserved⟩ := reserveWaitersLocked_reserves
    (w.invalidate.moveTo .ready).clearFailureLocked hwait
  obtain ⟨active, hreserve⟩ := Coherent.reserveWaitersLocked_frame
    (w.invalidate.moveTo .ready).clearFailureLocked
    { act.wait with failed := Ended.ready != .ready }
  obtain ⟨epoch, idle, hframe⟩ := armIdleLocked_frame env
    { (w.invalidate.moveTo .ready).clearFailureLocked with active := active }
  obtain ⟨phase, refused, hmove⟩ := w.invalidate.moveTo_frame .ready
  refine ⟨_, ?_, hrequests, hreserved.trans (congrArg _ hrequests.symm)⟩
  unfold settleActivation
  dsimp only
  rw [hreserve, hframe]
  dsimp only [clearFailureLocked]
  rw [hmove]
  rfl

/-- The wait of a rejected idle stop is closed with its reservations. -/
theorem settleStopLocked_reserves {w : Workload} {stop : Stop} (hwait : stop.wait.Opened)
    (hkind : stop.kind = .idle) {result : StopResult} (hresult : result ≠ .succeeded) :
    ∃ wait, (w.settleStopLocked env stop result).closed = wait :: w.closed ∧
      wait.requests = stop.wait.requests ∧ wait.reserved = wait.requests := by
  obtain ⟨hrequests, hreserved⟩ := reserveWaitersLocked_reserves (w.settleTo .ready) hwait
  obtain ⟨active, hreserve⟩ := Coherent.reserveWaitersLocked_frame (w.settleTo .ready) stop.wait
  obtain ⟨epoch, idle, hframe⟩ :=
    armIdleLocked_frame env { w.settleTo .ready with active := active }
  obtain ⟨phase, refused, hmove⟩ := w.settleTo_frame .ready
  refine ⟨_, ?_, hrequests, hreserved.trans (congrArg _ hrequests.symm)⟩
  unfold settleStopLocked
  cases result with
  | succeeded => exact absurd rfl hresult
  | rejected | ambiguous =>
    rw [hkind]
    dsimp only
    rw [hreserve, hframe]
    dsimp only
    rw [hmove]

/-- A request that leaves a wait with reservations takes exactly one: as its lease, or back from the
counter. -/
theorem leaveWait_takes_one {w : Workload} {env : Env} {claim : Bool} {n : ℕ} {wait : Wait}
    (hn : w.closed[n]? = some wait) (hreserved : wait.reserved ≠ 0)
    (hleave : w.leaveWait env claim (.closed n) = some w') :
    w'.closed = w.closed.set n { wait with
        waiting := wait.waiting - 1, requests := wait.requests - 1
        reserved := wait.reserved - 1 } ∧
      ((w'.leases = wait.lease :: w.leases ∧ w'.active = w.active) ∨
        (w'.leases = w.leases ∧
          w'.active = Function.update w.active wait.lease (w.active wait.lease - 1))) := by
  simp only [leaveWait, hn] at hleave
  obtain ⟨-, heq⟩ := Option.ite_none_left_eq_some.1 hleave
  obtain ⟨epoch, idle, hfinish⟩ := finishWaiting_reserved env w claim hreserved
  rw [hfinish] at heq
  obtain rfl := Option.some.inj heq
  refine ⟨rfl, ?_⟩
  cases w.claims wait claim with
  | true => exact Or.inl ⟨rfl, rfl⟩
  | false => exact Or.inr ⟨rfl, rfl⟩

end Workload

/-- **Activity accounting.**  In every interleaving of a workload's sections:

* the counter of every binding is the number of its outstanding leases and reservations, and never
  negative;
* a wait holds a reservation for each of its requests once it is settled in the requests' favour, and
  none otherwise;
* a request that leaves such a wait takes exactly one reservation, whatever has become of the binding;
* an idle stop is installed only on a binding without leases and reservations. -/
theorem activity_accounted {w : Workload} (h : workloadMachine.Reachable w) :
    (∀ k, w.active k = w.leases.count k + reservations w.closed k ∧ 0 ≤ w.active k) ∧
      (∀ wait ∈ w.closed, wait.waiting = wait.requests ∧
        (wait.reserved = 0 ∨ wait.reserved = wait.requests)) ∧
      (∀ env act, w.activation = some act → ∃ wait, (w.settleActivation env act .ready).1.closed =
        wait :: w.closed ∧ wait.requests = act.wait.requests ∧ wait.reserved = wait.requests) ∧
      (∀ env stop result, w.stop = some stop → stop.kind = .idle → result ≠ .succeeded →
        ∃ wait, (w.settleStopLocked env stop result).closed = wait :: w.closed ∧
          wait.requests = stop.wait.requests ∧ wait.reserved = wait.requests) ∧
      (∀ env claim n wait w', w.closed[n]? = some wait → wait.reserved ≠ 0 →
        w.leaveWait env claim (.closed n) = some w' →
        w'.closed = w.closed.set n { wait with
            waiting := wait.waiting - 1, requests := wait.requests - 1
            reserved := wait.reserved - 1 } ∧
          ((w'.leases = wait.lease :: w.leases ∧ w'.active = w.active) ∨
            (w'.leases = w.leases ∧
              w'.active = Function.update w.active wait.lease (w.active wait.lease - 1)))) ∧
      (∀ env a w' effects stop, w.step env a = some (w', effects) → w.stop = none →
        w'.stop = some stop → stop.kind = .idle →
        stop.binding ∉ w.leases ∧ reservations w.closed stop.binding = 0) := by
  have hw := accounted_reachable h
  have hcoherent := coherent_reachable h
  refine ⟨fun k => ⟨hw.active k, hw.active_nonneg k⟩,
    fun wait hwait => ⟨(hw.closed wait hwait).counted, (hw.closed wait hwait).reserved⟩,
    fun env act hact => Workload.settleActivation_reserves hw env hact,
    fun env stop result hstop hkind hresult =>
      Workload.settleStopLocked_reserves env (hw.stop hstop) hkind hresult,
    fun env claim n wait w' hn hreserved hleave =>
      Workload.leaveWait_takes_one hn hreserved hleave, ?_⟩
  intro env a w' effects stop hstep hnone hsome hkind
  have hnew : w'.stopIdentity = some stop.identity := by rw [Workload.stopIdentity, hsome]; rfl
  cases Workload.stop_change hcoherent hw hstep with
  | kept hkept =>
    rw [hnew, Workload.stopIdentity, hnone] at hkept
    exact absurd hkept (by simp)
  | idle hphase hidle =>
    rw [hnew, Option.some.injEq, Stop.identity, Prod.mk.injEq, Prod.mk.injEq] at hidle
    rw [hidle.2.2]
    exact (hw.active_eq_zero_iff w.key).1 (hcoherent.pending hphase)
  | cleanup _ hcleanup =>
    rw [hnew, Option.some.injEq, Stop.identity, Prod.mk.injEq, Prod.mk.injEq, hkind] at hcleanup
    exact absurd hcleanup.2.1 (by simp)
  | settled hstop => exact absurd (hnone.symm.trans hstop) (by simp)

/-- A request waits for a container to be proved ready and is woken. -/
def waitedRun : List (Env × Action) :=
  [(running, .prepareObservation 1 (lit "c1") true), (running, .serveState 1), (running, .probe),
    (running, .settleActivation .ready)]

theorem activity_accounted_waitedRun : ∃ w, workloadMachine.Reachable w ∧ w.phase = .ready ∧
    reservations w.closed 1 = 1 ∧ w.active 1 = w.leases.count 1 + reservations w.closed 1 := by
  have hstart : workloadMachine.Reachable (.registered (lit "web") false 0 0) :=
    .start (Or.inl ⟨_, _, _, _, rfl⟩)
  have hreach := hstart.run (show workloadMachine.run _ waitedRun = some _ from rfl)
  exact ⟨_, hreach, rfl, rfl, ((activity_accounted hreach).1 1).1⟩

end Statute.Lifecycle
