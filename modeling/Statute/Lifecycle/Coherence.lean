import Statute.Lifecycle.Activity

/-!
# Phase coherence

What a workload owns follows from its phase: a stop exactly in the two stopping phases, an activation
exactly in `starting`, no activity in `stopPending`.  Every transition whose result a section ignores
is legal, and `newStopLocked` never finds a stop in its way.

The invariant also fixes who works on a stop: at most one goroutine, which is inside an attempt exactly
while `issued` is set, and then the phase is `stopIssued`.

* `coherent_reachable`: the invariant on every reachable workload.
* `phase_coherent`: what that says about phases.
-/

namespace Statute.Lifecycle

open Statute.Base

/-! ### The invariant -/

/-- The goroutine is between `beginStopAttempt` and the end of its attempt. -/
def Runner.attempting : Runner → Bool
  | .starting | .waiting | .finishing => false
  | _ => true

/-- The container ID a goroutine carries from one section to the next. -/
def Runner.container : Runner → Option Bytes
  | .putting id | .committing id | .deleting id _ | .settling id _ _ => some id
  | _ => none

/-- A stop against the phase, the binding and the container of its workload. -/
structure Stop.Coherent (stop : Stop) (phase : Phase) (key : ℕ) (id : Bytes) : Prop where
  binding : stop.binding = key
  runners : (stop.runners = [] ∧ stop.converging = false) ∨
    ∃ runner, stop.runners = [runner] ∧ stop.converging = true
  issued : stop.issued = stop.runners.any Runner.attempting
  phase_issued : stop.issued = true → phase = .stopIssued
  issued_phase : phase = .stopIssued → stop.issued = true ∨ stop.runners = [.starting]
  container : ∀ runner ∈ stop.runners, ∀ carried ∈ runner.container, carried = id

namespace Workload

/-- What a workload owns follows from its phase. -/
structure Coherent (w : Workload) : Prop where
  stop_iff : w.stop.isSome = w.phase.stopping
  activation_iff : w.activation.isSome = (w.phase == .starting)
  bound : w.phase ≠ .dormant → w.phase ≠ .failed → w.binding.isSome = true
  activation : ∀ act, w.activation = some act → act.binding = w.key
  stop : ∀ stop, w.stop = some stop → stop.Coherent w.phase w.key w.ownedID
  pending : w.phase = .stopPending → w.active w.key = 0
  refused : w.refused = false
  panicked : w.panicked = false

/-! ### Legal transitions -/

theorem settleTo_legal (w : Workload) (next : Phase) (hnext : next ∈ w.phase.transitions) :
    w.settleTo next = { w with phase := next } := by
  rw [settleTo, transitionLocked, if_pos (List.contains_iff_mem.2 hnext)]
  rfl

theorem moveTo_legal (w : Workload) (next : Phase)
    (hstop : w.stop = none ∨ next.stopping = true) (hnext : next ∈ w.phase.transitions) : w.moveTo next = { w with phase := next } := by
  have hfree : (w.stop.isSome && next != .stopIssued && next != .stopUnknown) = false := by
    rcases hstop with hstop | hstop
    · simp [hstop]
    · cases next <;> simp_all [Phase.stopping]
  rw [moveTo, toLocked, hfree]
  exact settleTo_legal w next hnext

/-- The workload with a stop whose goroutine has not begun. -/
def installed (w : Workload) (kind : StopKind) (binding : ℕ) : Workload :=
  { w with
    phase := .stopIssued
    observationEpoch := w.observationEpoch + 1
    stop := some { kind := kind, binding := binding, converging := true, runners := [.starting],
                   serial := w.stops }
    stops := w.stops + 1 }

theorem install_eq (w : Workload) (hstop : w.stop = none) (hphase : .stopIssued ∈ w.phase.transitions)
    (kind : StopKind) (binding : ℕ) :
    (w.moveTo .stopIssued).newStopLocked kind binding = w.installed kind binding := by
  rw [moveTo_legal w .stopIssued (Or.inl hstop) hphase, newStopLocked, if_neg (by simp [hstop])]
  rfl

/-! ### Reading the invariant -/

namespace Coherent

variable {w : Workload}

theorem stop_none (h : w.Coherent) (hphase : w.phase.stopping = false) : w.stop = none := by
  have hstop := h.stop_iff
  rw [hphase] at hstop
  simpa using hstop

theorem activation_none (h : w.Coherent) (hphase : w.phase ≠ .starting) : w.activation = none := by
  have hact := h.activation_iff
  rw [beq_eq_false_iff_ne.2 hphase] at hact
  simpa using hact

theorem stop_phase (h : w.Coherent) {stop : Stop} (hstop : w.stop = some stop) :
    w.phase.stopping = true := by
  rw [← h.stop_iff, hstop, Option.isSome_some]

theorem activation_phase (h : w.Coherent) {act : Activation} (hact : w.activation = some act) :
    w.phase = .starting := by
  have hphase := h.activation_iff
  rw [hact, Option.isSome_some] at hphase
  exact beq_iff_eq.1 hphase.symm

theorem stop_bound (h : w.Coherent) {stop : Stop} (hstop : w.stop = some stop) :
    w.binding.isSome = true := by
  have hphase := h.stop_phase hstop
  refine h.bound ?_ ?_ <;> intro heq <;> simp [heq, Phase.stopping] at hphase

/-- A goroutine of a stop still owns it. -/
theorem owns (h : w.Coherent) {stop : Stop} (hstop : w.stop = some stop) : w.owns stop = true := by
  rw [Workload.owns, h.stop_bound hstop, (h.stop stop hstop).binding]
  simp

theorem ownsContainer (h : w.Coherent) {stop : Stop} (hstop : w.stop = some stop) :
    w.ownsContainer stop w.ownedID = true := by
  obtain ⟨b, hb⟩ := Option.isSome_iff_exists.1 (h.stop_bound hstop)
  rw [Workload.ownsContainer, h.owns hstop]
  simp [ownedID, hb]

end Coherent

/-! ### Building it -/

/-- A workload that owns neither a stop nor an activation. -/
theorem coherent_of_calm {w : Workload} (hstop : w.stop = none) (hact : w.activation = none)
    (hcalm : w.phase.stopping = false) (hphase : w.phase ≠ .starting)
    (hbound : w.phase ≠ .dormant → w.phase ≠ .failed → w.binding.isSome = true)
    (hpending : w.phase = .stopPending → w.active w.key = 0) (hrefused : w.refused = false)
    (hpanicked : w.panicked = false) : w.Coherent where
  stop_iff := by rw [hstop, hcalm]; rfl
  activation_iff := by rw [hact, beq_eq_false_iff_ne.2 hphase]; rfl
  bound := hbound
  activation := by simp [hact]
  stop := by simp [hstop]
  pending := hpending
  refused := hrefused
  panicked := hpanicked

/-- A workload with a stop. -/
theorem coherent_of_stop {w : Workload} {stop : Stop} (hstop : w.stop = some stop)
    (hact : w.activation = none) (hphase : w.phase.stopping = true)
    (hbound : w.binding.isSome = true) (hcoherent : stop.Coherent w.phase w.key w.ownedID)
    (hrefused : w.refused = false) (hpanicked : w.panicked = false) : w.Coherent where
  stop_iff := by rw [hstop, hphase]; rfl
  activation_iff := by
    rw [hact]
    cases hp : w.phase <;> simp_all [Phase.stopping]
  bound := fun _ _ => hbound
  activation := by simp [hact]
  stop := by
    intro other hother
    rw [hstop, Option.some.injEq] at hother
    rwa [← hother]
  pending := by
    intro heq
    simp [heq, Phase.stopping] at hphase
  refused := hrefused
  panicked := hpanicked

/-- A workload with an activation. -/
theorem coherent_of_activation {w : Workload} {act : Activation} (hact : w.activation = some act)
    (hstop : w.stop = none) (hphase : w.phase = .starting) (hbound : w.binding.isSome = true)
    (hbinding : act.binding = w.key) (hrefused : w.refused = false) (hpanicked : w.panicked = false) :
    w.Coherent where
  stop_iff := by rw [hstop, hphase]; rfl
  activation_iff := by rw [hact, hphase]; rfl
  bound := fun _ _ => hbound
  activation := by
    intro other hother
    rw [hact, Option.some.injEq] at hother
    rwa [← hother]
  stop := by simp [hstop]
  pending := by simp [hphase]
  refused := hrefused
  panicked := hpanicked

namespace Coherent

variable {w : Workload}

variable {act : Activation}

/-- Changing an activation, but not the binding it works for. -/
theorem setActivation (h : w.Coherent) (hact : w.activation = some act) (next : Activation)
    (hnext : next.binding = act.binding) :
    ({ w with activation := some next } : Workload).Coherent :=
  have hphase := h.activation_phase hact
  coherent_of_activation rfl (h.stop_none (by rw [hphase]; rfl)) hphase
    (h.bound (by simp [hphase]) (by simp [hphase])) (hnext.trans (h.activation act hact))
    h.refused h.panicked

/-- Changing a stop. -/
theorem setStop (h : w.Coherent) {stop : Stop} (hstop : w.stop = some stop) (next : Stop)
    (hnext : next.Coherent w.phase w.key w.ownedID) :
    ({ w with stop := some next } : Workload).Coherent :=
  have hphase := h.stop_phase hstop
  coherent_of_stop rfl (h.activation_none (by intro heq; simp [heq, Phase.stopping] at hphase))
    hphase (h.stop_bound hstop) hnext h.refused h.panicked

/-- The invariant reads seven fields. -/
theorem congr {w' : Workload} (h : w.Coherent) (hphase : w'.phase = w.phase)
    (hbinding : w'.binding = w.binding) (hact : w'.activation = w.activation)
    (hstop : w'.stop = w.stop) (hactive : w'.active = w.active) (hrefused : w'.refused = w.refused)
    (hpanicked : w'.panicked = w.panicked) : w'.Coherent := by
  have hkey : w'.key = w.key := by rw [key, key, hbinding]
  have hid : w'.ownedID = w.ownedID := by rw [ownedID, ownedID, hbinding]
  refine ⟨?_, ?_, ?_, ?_, ?_, ?_, ?_, ?_⟩
  · rw [hstop, hphase, h.stop_iff]
  · rw [hact, hphase, h.activation_iff]
  · rw [hphase, hbinding]
    exact h.bound
  · rw [hact, hkey]
    exact h.activation
  · rw [hstop, hphase, hkey, hid]
    exact h.stop
  · rw [hphase, hactive, hkey]
    exact h.pending
  · rw [hrefused, h.refused]
  · rw [hpanicked, h.panicked]

/-! ### Sections of an idle workload -/

theorem armIdleLocked (h : w.Coherent) (env : Env) : (w.armIdleLocked env).Coherent := by
  obtain ⟨epoch, idle, hframe⟩ := w.armIdleLocked_frame env
  rw [hframe]
  exact h.congr rfl rfl rfl rfl rfl rfl rfl

/-- `stopPending` ends with the timer; no other phase changes. -/
theorem stopIdleLocked_eq (h : w.Coherent) : w.stopIdleLocked = { w with
    idleEpoch := w.idleEpoch + 1, idle := false
    phase := if w.phase = .stopPending then .ready else w.phase } := by
  unfold Workload.stopIdleLocked
  dsimp only
  split
  · rename_i hphase
    exact moveTo_legal _ _ (Or.inl (h.stop_none (by rw [hphase]; rfl))) (by simp [hphase, Phase.transitions])
  · rfl

theorem stopIdleLocked (h : w.Coherent) : w.stopIdleLocked.Coherent := by
  rw [h.stopIdleLocked_eq]
  by_cases hphase : w.phase = .stopPending
  · refine coherent_of_calm (h.stop_none (by rw [hphase]; rfl))
      (h.activation_none (by simp [hphase])) ?_ ?_ ?_ ?_ h.refused h.panicked
    · simp [hphase, Phase.stopping]
    · simp [hphase]
    · exact fun _ _ => h.bound (by simp [hphase]) (by simp [hphase])
    · simp [hphase]
  · rw [if_neg hphase]
    exact h.congr rfl rfl rfl rfl rfl rfl rfl

/-- A ready workload gives up its container, timer included. -/
theorem drop_eq (h : w.Coherent) (hphase : w.phase = .ready ∨ w.phase = .stopPending) :
    (w.moveTo .dormant).stopIdleLocked = { w with
      phase := .dormant, idleEpoch := w.idleEpoch + 1, idle := false } := by
  have hmove : w.moveTo .dormant = { w with phase := .dormant } := by
    refine moveTo_legal _ _ (Or.inl (h.stop_none ?_)) ?_
    · rcases hphase with hphase | hphase <;> rw [hphase] <;> rfl
    · rcases hphase with hphase | hphase <;> simp [hphase, Phase.transitions]
  rw [hmove]
  rfl

theorem drop (h : w.Coherent) (hphase : w.phase = .ready ∨ w.phase = .stopPending) :
    ((w.moveTo .dormant).stopIdleLocked).Coherent := by
  rw [h.drop_eq hphase]
  refine coherent_of_calm (h.stop_none ?_) (h.activation_none ?_) rfl (by simp) (by simp) (by simp)
    h.refused h.panicked
  · rcases hphase with hphase | hphase <;> rw [hphase] <;> rfl
  · rcases hphase with hphase | hphase <;> simp [hphase]

theorem retire (h : w.Coherent) : w.retire.Coherent :=
  stopIdleLocked (w := { w with retired := true }) (h.congr rfl rfl rfl rfl rfl rfl rfl)

theorem unretireLocked (h : w.Coherent) : w.unretireLocked.Coherent := by
  have hback : ({ w with retired := false } : Workload).Coherent :=
    h.congr rfl rfl rfl rfl rfl rfl rfl
  unfold Workload.unretireLocked
  dsimp only
  split
  · exact h
  · split
    · exact hback.drop ‹_›
    · exact hback

theorem claimIdleStop (h : w.Coherent) (hw : w.Accounted) (binding epoch : ℕ) :
    (w.claimIdleStop binding epoch).Coherent := by
  unfold Workload.claimIdleStop
  split
  · exact h
  · rename_i hclaim
    simp only [Bool.or_eq_true, bne_iff_ne, decide_eq_true_eq, not_or, not_not, not_lt] at hclaim
    obtain ⟨⟨⟨⟨⟨hphase, -⟩, -⟩, -⟩, hactive⟩, -⟩ := hclaim
    have hstop := h.stop_none (by rw [hphase]; rfl)
    rw [moveTo_legal { w with idle := false } _ (Or.inl hstop)
      (by simp [hphase, Phase.transitions])]
    refine coherent_of_calm hstop (h.activation_none (by simp [hphase])) rfl (by simp) ?_ ?_
      h.refused h.panicked
    · exact fun _ _ => h.bound (by simp [hphase]) (by simp [hphase])
    · exact fun _ => le_antisymm hactive (hw.active_nonneg w.key)

/-- A pending stop that is given up. -/
theorem unpend (h : w.Coherent) (hphase : w.phase = .stopPending) : (w.moveTo .ready).Coherent := by
  have hstop := h.stop_none (by rw [hphase]; rfl)
  rw [moveTo_legal _ _ (Or.inl hstop) (by simp [hphase, Phase.transitions])]
  exact coherent_of_calm hstop (h.activation_none (by simp [hphase])) rfl (by simp)
    (fun _ _ => h.bound (by simp [hphase]) (by simp [hphase])) (by simp) h.refused h.panicked

theorem revokeIdleStop (h : w.Coherent) (binding epoch : ℕ) :
    (w.revokeIdleStop binding epoch).Coherent := by
  unfold Workload.revokeIdleStop
  split
  · rename_i hrevoke
    simp only [Bool.and_eq_true, beq_iff_eq] at hrevoke
    exact h.unpend hrevoke.1.1.1
  · exact h

/-! ### Requests and activations -/

theorem beginLocked (h : w.Coherent) (hphase : w.phase = .ready) : w.beginLocked.Coherent := by
  have hstop := h.stop_none (by rw [hphase]; rfl)
  refine coherent_of_calm hstop (h.activation_none (by simp [hphase])) ?_ ?_
    (fun _ _ => h.bound (by simp [hphase]) (by simp [hphase])) ?_ h.refused h.panicked
  · exact congrArg Phase.stopping hphase
  · exact fun heq => by simp [Workload.beginLocked, addActive, hphase] at heq
  · exact fun heq => by simp [Workload.beginLocked, addActive, hphase] at heq

/-- What `beginActivationLocked` does to a dormant or failed workload. -/
theorem beginActivationLocked_eq (h : w.Coherent) (env : Env) (observe : Bool)
    (hphase : w.phase = .dormant ∨ w.phase = .failed) : w.beginActivationLocked env observe =
      if w.retired then (w, false)
      else if env.tracked then
        ({ w with
            phase := .starting
            activation := some { observe := observe, binding := w.key } }, true)
      else ({ w with phase := .dormant }, false) := by
  have hstop : w.stop = none := by
    rcases hphase with hphase | hphase <;> exact h.stop_none (by rw [hphase]; rfl)
  have hact : w.activation = none := by
    rcases hphase with hphase | hphase <;> exact h.activation_none (by simp [hphase])
  have hto : w.toLocked .starting = ({ w with phase := .starting }, true) := by
    rcases hphase with hphase | hphase <;>
      simp [toLocked, transitionLocked, hstop, hphase, Phase.transitions]
  unfold beginActivationLocked
  rw [hto]
  dsimp only
  split
  · rfl
  · split
    · rename_i hfalse
      cases hfalse
    · split
      · rfl
      · rw [moveTo_legal { w with phase := .starting, activation := none } .dormant (Or.inl hstop)
          (by simp [Phase.transitions]), hact]

/-- The activation that `beginActivationLocked` leaves in a bound workload. -/
theorem beginActivationLocked (h : w.Coherent) (env : Env) (observe : Bool)
    (hphase : w.phase = .dormant ∨ w.phase = .failed) (hbound : w.binding.isSome = true) :
    (w.beginActivationLocked env observe).1.Coherent := by
  have hstop : w.stop = none := by
    rcases hphase with hphase | hphase <;> exact h.stop_none (by rw [hphase]; rfl)
  have hact : w.activation = none := by
    rcases hphase with hphase | hphase <;> exact h.activation_none (by simp [hphase])
  rw [h.beginActivationLocked_eq env observe hphase]
  split
  · exact h
  · split
    · exact coherent_of_activation rfl hstop rfl hbound rfl h.refused h.panicked
    · exact coherent_of_calm hstop hact rfl (by simp) (by simp) (by simp) h.refused h.panicked

theorem joinActivation (h : w.Coherent) : ({ w with
    activation := w.activation.map (fun act => { act with wait := act.wait.join }) } :
      Workload).Coherent := by
  cases hact : w.activation with
  | none => exact h.congr rfl rfl (by simp [hact]) rfl rfl rfl rfl
  | some act => exact h.setActivation hact { act with wait := act.wait.join } rfl

theorem beginAndWait (h : w.Coherent) (env : Env) (observe : Bool)
    (hphase : w.phase = .dormant ∨ w.phase = .failed) (hbound : w.binding.isSome = true) :
    (w.beginAndWait env observe).Coherent := by
  have hbegun := h.beginActivationLocked env observe hphase hbound
  unfold Workload.beginAndWait
  dsimp only
  split
  · exact hbegun.joinActivation
  · exact hbegun

theorem serveState (h : w.Coherent) (env : Env) (expected : ℕ) :
    (w.serveState env expected).Coherent := by
  unfold Workload.serveState
  split
  · exact h
  · rename_i hserved
    have hbound : w.binding.isSome = true := by
      simp only [Bool.or_eq_true, not_or] at hserved
      simpa [Option.isSome_iff_ne_none] using hserved.1
    unfold serveCurrentStateLocked
    split
    · rename_i hphase
      exact h.beginLocked hphase
    · rename_i hphase
      have hmove := moveTo_legal w .ready (Or.inl (h.stop_none (by rw [hphase]; rfl)))
        (by simp [hphase, Phase.transitions])
      refine (h.unpend hphase).beginLocked ?_
      rw [hmove]
    · split
      · exact h
      · exact h.beginAndWait env _ (Or.inr ‹_›) hbound
    · exact h.beginAndWait env _ (Or.inl ‹_›) hbound
    · exact h.joinActivation
    · cases hstop : w.stop with
      | none => exact h.congr rfl rfl rfl (by simp [hstop]) rfl rfl rfl
      | some stop =>
        have hcoherent := h.stop stop hstop
        exact h.setStop hstop { stop with wait := stop.wait.join } ⟨hcoherent.binding,
          hcoherent.runners, hcoherent.issued, hcoherent.phase_issued, hcoherent.issued_phase,
          hcoherent.container⟩
    · exact h

/-! ### Installing a stop -/

/-- A stop that was just installed. -/
theorem newStop_coherent (kind : StopKind) (key serial : ℕ) (id : Bytes) :
    ({ kind := kind, binding := key, converging := true, runners := [.starting],
       serial := serial } : Stop).Coherent .stopIssued key id where
  binding := rfl
  runners := Or.inr ⟨.starting, rfl, rfl⟩
  issued := rfl
  phase_issued := fun _ => rfl
  issued_phase := fun _ => Or.inr rfl
  container := by simp [Runner.container]

theorem performStop (h : w.Coherent) (binding epoch : ℕ) :
    (w.performStop binding epoch).1.Coherent := by
  unfold Workload.performStop
  split
  · exact h
  · rename_i hperform
    simp only [Bool.or_eq_true, bne_iff_ne, not_or, not_not] at hperform
    have hphase := hperform.1.1.1
    have hstop := h.stop_none (by rw [hphase]; rfl)
    split
    · exact h.unpend hphase
    · rw [install_eq w hstop (by simp [hphase, Phase.transitions])]
      exact coherent_of_stop rfl (h.activation_none (by simp [hphase])) rfl
        (h.bound (by simp [hphase]) (by simp [hphase])) (newStop_coherent _ _ _ _)
        h.refused h.panicked

/-- A failed activation is stopped again, unless it was only observed or the grant is gone. -/
theorem failActivation_eq (h : w.Coherent) (env : Env) (hact : w.activation = some act) : w.failActivation env act =
      if !act.observe && !w.retired then
        (({ w with
            failures := w.failures + 1, failedUntil := env.now + env.backoff
            failureStopped := false } : Workload).installed
          .cleanup w.key, [.invalidate, .stopInstalled])
      else
        ({ w with
            failures := w.failures + 1, failedUntil := env.now + env.backoff
            failureStopped := false, phase := .failed }, []) := by
  have hphase := h.activation_phase hact
  have hstop := h.stop_none (by rw [hphase]; rfl)
  unfold failActivation
  dsimp only
  split
  · rw [install_eq { w with
      failures := w.failures + 1, failedUntil := env.now + env.backoff, failureStopped := false } hstop
      (by simp [hphase, Phase.transitions]), h.activation act hact]
  · rw [moveTo_legal { w with
      failures := w.failures + 1, failedUntil := env.now + env.backoff, failureStopped := false } .failed
      (Or.inl hstop) (by simp [hphase, Phase.transitions])]

theorem failActivation (h : w.Coherent) (env : Env) (hact : w.activation = some act)
    (closed : List Wait) :
    ({ (w.failActivation env act).1 with
        activation := none, closed := closed } : Workload).Coherent := by
  have hphase := h.activation_phase hact
  have hstop := h.stop_none (by rw [hphase]; rfl)
  rw [h.failActivation_eq env hact]
  split
  · exact coherent_of_stop rfl rfl rfl (h.bound (by simp [hphase]) (by simp [hphase]))
      (newStop_coherent _ _ _ _) h.refused h.panicked
  · exact coherent_of_calm hstop rfl rfl (by simp) (by simp) (by simp) h.refused h.panicked

/-- Reserving touches the counters only. -/
theorem reserveWaitersLocked_frame (w : Workload) (wait : Wait) :
    ∃ active, (w.reserveWaitersLocked wait).1 = { w with active := active } := by
  unfold reserveWaitersLocked
  split
  · exact ⟨w.active, rfl⟩
  · exact ⟨_, rfl⟩

theorem settleActivation (h : w.Coherent) (env : Env) (hact : w.activation = some act)
    (ended : Ended) : (w.settleActivation env act ended).1.Coherent := by
  have hphase := h.activation_phase hact
  have hstop := h.stop_none (by rw [hphase]; rfl)
  have hstart : w.invalidate.Coherent := h.congr rfl rfl rfl rfl rfl rfl rfl
  have hbound := h.bound (by simp [hphase]) (by simp [hphase])
  have hdormant : ∀ closed, ({ w.invalidate.moveTo .dormant with
      activation := none, closed := closed } : Workload).Coherent := by
    intro closed
    rw [moveTo_legal w.invalidate .dormant (Or.inl hstop)
      (by simp [invalidate, hphase, Phase.transitions])]
    exact coherent_of_calm hstop rfl rfl (by simp) (by simp) (by simp) h.refused h.panicked
  unfold Workload.settleActivation
  cases ended with
  | ready =>
    dsimp only
    rw [moveTo_legal w.invalidate .ready (Or.inl hstop)
      (by simp [invalidate, hphase, Phase.transitions])]
    obtain ⟨active, hreserve⟩ := reserveWaitersLocked_frame
      ({ w.invalidate with phase := .ready } : Workload).clearFailureLocked
      { act.wait with failed := Ended.ready != .ready }
    rw [hreserve]
    obtain ⟨epoch, idle, hframe⟩ := armIdleLocked_frame env
      { ({ w.invalidate with phase := .ready } : Workload).clearFailureLocked with active := active }
    rw [hframe]
    exact coherent_of_calm hstop rfl rfl (by simp [clearFailureLocked]) (fun _ _ => hbound)
      (by simp [clearFailureLocked]) h.refused h.panicked
  | cancelled => exact hdormant _
  | stopped =>
    dsimp only
    split
    · exact hdormant _
    · exact hstart.failActivation env hact _
  | failed => exact hstart.failActivation env hact _

end Coherent

/-! ### Converging a stop -/

/-- The stop with its goroutine at one point. -/
def runnerAt (w : Workload) (stop : Stop) (runner : Runner) : Workload :=
  { w with stop := some { stop with runners := [runner] } }

def unsettled (w : Workload) (stop : Stop) : Workload :=
  { w with
    phase := .stopUnknown
    stop := some { stop with issued := false, runners := [.waiting] } }

/-- What the goroutine of a stop does in a coherent workload.  It owns the stop whenever it looks, so
the branches for lost ownership are gone. -/
inductive Converge (env : Env) (w : Workload) (stop : Stop) :
    Runner → RunnerStep → Workload → List Effect → Prop
  | begin : Converge env w stop .starting .begin
      (({ w with phase := .stopIssued } : Workload).runnerAt { stop with issued := true } .persisting) []
  | known (h : stop.persisted = true) :
      Converge env w stop .persisting .persist (w.runnerAt stop .reading) []
  | write (h : stop.persisted = false) :
      Converge env w stop .persisting .persist (w.runnerAt stop (.putting w.ownedID)) []
  | stored : Converge env w stop (.putting w.ownedID) (.put true)
      (w.runnerAt stop (.committing w.ownedID)) []
  | unstored : Converge env w stop (.putting w.ownedID) (.put false) (w.runnerAt stop .deferring) []
  | commit : Converge env w stop (.committing w.ownedID) .commit
      (w.runnerAt { stop with persisted := true } .reading) []
  | defer : Converge env w stop .deferring .defer (w.unsettled stop) []
  | reapply (h : stop.terminal = true) :
      Converge env w stop .reading .read (w.runnerAt stop (.applying stop.result)) []
  | attempt (h : stop.terminal = false) :
      Converge env w stop .reading .read (w.runnerAt stop .invoking) []
  | invoke : Converge env w stop .invoking .invoke
      (w.runnerAt { stop with invoked := true } .calling) []
  | doubt : Converge env w stop .calling (.answer .ambiguous)
      (w.runnerAt { stop with doubted := true } .marking) []
  | answer {result : StopResult} (h : result ≠ .ambiguous) :
      Converge env w stop .calling (.answer result) (w.runnerAt stop (.applying result)) []
  | mark : Converge env w stop .marking .mark (w.runnerAt stop (.applying .ambiguous)) []
  | ambiguous : Converge env w stop (.applying .ambiguous) .apply
      (w.unsettled { stop with uncertain := true }) []
  | doubtful (h : stop.uncertain = true) :
      Converge env w stop (.applying .rejected) .apply (w.unsettled stop) []
  | terminal {result : StopResult} (hresult : result ≠ .ambiguous)
      (hsure : result = .rejected → stop.uncertain = false) (h : stop.terminal = false) :
      Converge env w stop (.applying result) .apply
        (w.invalidate.runnerAt { stop with terminal := true, result := result }
          (.deleting w.ownedID result)) [.invalidate, .stopTerminal]
  | recorded {result : StopResult} (hresult : result ≠ .ambiguous)
      (hsure : result = .rejected → stop.uncertain = false) (h : stop.terminal = true) :
      Converge env w stop (.applying result) .apply
        (w.runnerAt stop (.deleting w.ownedID stop.result)) []
  | delete (result : StopResult) (deleted : Bool) :
      Converge env w stop (.deleting w.ownedID result) (.delete deleted)
        (w.runnerAt stop (.settling w.ownedID result deleted)) []
  | undeleted (result : StopResult) : Converge env w stop (.settling w.ownedID result false) .settle
      (w.unsettled stop) []
  | settle (result : StopResult) : Converge env w stop (.settling w.ownedID result true) .settle
      (w.invalidate.settleStopLocked env { stop with issued := false } result)
      [.invalidate, .stopSettled stop.binding result]
  | retry : Converge env w stop .waiting (.retry true) (w.runnerAt stop .starting) []
  | cease : Converge env w stop .waiting (.retry false) (w.runnerAt stop .finishing) []
  | finish : Converge env w stop .finishing .finish
      { w with stop := some { stop with converging := false, runners := [] } } []

end Workload

/-- A stop has one goroutine at most. -/
theorem Stop.Coherent.sole {stop : Stop} {phase : Phase} {key n : ℕ} {id : Bytes} {runner : Runner}
    (h : stop.Coherent phase key id) (hn : stop.runners[n]? = some runner) :
    n = 0 ∧ stop.runners = [runner] ∧ stop.converging = true := by
  rcases h.runners with ⟨hnil, -⟩ | ⟨sole, hsole, hconverging⟩
  · simp [hnil] at hn
  · rw [hsole] at hn
    cases n with
    | zero => exact ⟨rfl, by simpa [hsole] using hn, hconverging⟩
    | succ n => simp at hn

namespace Workload

theorem unsettleStopLocked_eq {w : Workload} (stop : Stop) (hphase : w.phase = .stopIssued)
    (hrunners : stop.runners.length = 1) :
    w.unsettleStopLocked (stop.moveRunner 0 .waiting) = w.unsettled stop := by
  obtain ⟨runner, hrunner⟩ := List.length_eq_one_iff.1 hrunners
  rw [unsettleStopLocked]
  dsimp only
  rw [if_pos hphase, moveTo_legal _ .stopUnknown (Or.inr rfl) (by simp [hphase, Phase.transitions])]
  simp only [unsettled, Stop.moveRunner, hrunner, List.set_cons_zero]

theorem RunnerMove.converge {env : Env} {w w' : Workload} {stop : Stop} {n : ℕ} {runner : Runner}
    {next : RunnerStep} {effects : List Effect} (h : w.Coherent) (hstop : w.stop = some stop)
    (hn : stop.runners[n]? = some runner) (hmove : RunnerMove env w stop n runner next w' effects) :
    Converge env w stop runner next w' effects := by
  have hcoherent := h.stop stop hstop
  have howns := h.owns hstop
  have hid : ∀ carried ∈ runner.container, carried = w.ownedID :=
    hcoherent.container runner (List.mem_of_getElem? hn)
  obtain ⟨rfl, hrunners, -⟩ := hcoherent.sole hn
  have hphase : runner.attempting = true → w.phase = .stopIssued := by
    intro hattempting
    refine hcoherent.phase_issued ?_
    rw [hcoherent.issued, hrunners]
    simp [hattempting]
  have hone : stop.runners.length = 1 := by rw [hrunners]; rfl
  cases hmove with
  | begin =>
    have hmoved : (if w.phase = .stopUnknown then w.moveTo .stopIssued else w) =
        { w with phase := .stopIssued } := by
      have hstopping := h.stop_phase hstop
      split
      · rename_i hunknown
        exact moveTo_legal w .stopIssued (Or.inr rfl) (by simp [hunknown, Phase.transitions])
      · have hissued : w.phase = .stopIssued := by
          cases hp : w.phase <;> simp_all [Phase.stopping]
        rw [← hissued]
    rw [beginStopAttempt, howns, if_neg (by simp), hmoved]
    simp only [Stop.moveRunner, hrunners, List.set_cons_zero]
    exact .begin
  | persist =>
    rw [persistOwnedStop, howns]
    simp only [Stop.moveRunner, hrunners, List.set_cons_zero, Bool.not_true, Bool.false_eq_true,
      if_false]
    split
    · exact .known ‹_›
    · exact .write (Bool.eq_false_of_not_eq_true ‹_›)
  | put id stored =>
    obtain rfl := hid id rfl
    simp only [Stop.moveRunner, hrunners, List.set_cons_zero]
    cases stored with
    | true => exact .stored
    | false => exact .unstored
  | commit id =>
    obtain rfl := hid id rfl
    rw [commitOwnedStop, h.ownsContainer hstop, if_neg (by simp)]
    simp only [Stop.moveRunner, hrunners, List.set_cons_zero]
    exact .commit
  | defer =>
    rw [deferOwnedStop, howns, if_neg (by simp), unsettleStopLocked_eq stop (hphase rfl) hone]
    exact .defer
  | read =>
    simp only [readStopResult, Stop.moveRunner, hrunners, List.set_cons_zero]
    split
    · exact .reapply ‹_›
    · exact .attempt (Bool.eq_false_of_not_eq_true ‹_›)
  | invoke =>
    simp only [invokeStop, Stop.moveRunner, hrunners, List.set_cons_zero]
    exact .invoke
  | answer result =>
    simp only [answerStop, Stop.moveRunner, hrunners, List.set_cons_zero]
    split
    · rename_i hambiguous
      subst hambiguous
      exact .doubt
    · exact .answer ‹_›
  | mark =>
    simp only [Stop.moveRunner, hrunners, List.set_cons_zero]
    exact .mark
  | apply result =>
    rw [applyStopAttempt, howns, if_neg (by simp)]
    split
    · rename_i hambiguous
      subst hambiguous
      rw [unsettleStopLocked_eq { stop with uncertain := true } (hphase rfl) hone]
      exact .ambiguous
    · split
      · rename_i hdoubtful
        obtain ⟨rfl, huncertain⟩ := hdoubtful
        rw [unsettleStopLocked_eq stop (hphase rfl) hone]
        exact .doubtful huncertain
      · rename_i hresult hsure
        have hsure : result = .rejected → stop.uncertain = false := by simpa using hsure
        simp only [Stop.moveRunner, hrunners, List.set_cons_zero]
        split
        · exact .terminal hresult hsure (by simpa using ‹(!stop.terminal) = true›)
        · exact .recorded hresult hsure (by simpa using ‹¬(!stop.terminal) = true›)
  | delete id result deleted =>
    obtain rfl := hid id rfl
    simp only [Stop.moveRunner, hrunners, List.set_cons_zero]
    exact .delete result deleted
  | settle id result deleted =>
    obtain rfl := hid id rfl
    rw [settleStopAttempt, h.ownsContainer hstop, if_neg (by simp)]
    cases deleted with
    | true => exact .settle result
    | false =>
      rw [unsettleStopLocked_eq stop (hphase rfl) hone]
      exact .undeleted result
  | retry again =>
    simp only [waitStopRetry, howns, Stop.moveRunner, hrunners, List.set_cons_zero, Bool.and_true]
    cases again with
    | true => exact .retry
    | false => exact .cease
  | finish =>
    simp only [finishStopConvergence, hrunners, List.eraseIdx_cons_zero]
    exact .finish

end Workload

/-- The goroutine moves on inside its attempt. -/
theorem Stop.Coherent.attempting {stop next : Stop} {phase : Phase} {key : ℕ} {id : Bytes}
    {runner : Runner} (h : stop.Coherent phase key id) (hrunners : stop.runners = [runner])
    (hattempting : runner.attempting = true) (point : Runner) (hpoint : point.attempting = true)
    (hcontainer : ∀ carried ∈ point.container, carried = id) (hnext : next.runners = [point])
    (hbinding : next.binding = stop.binding) (hissued : next.issued = stop.issued)
    (hconverging : next.converging = stop.converging) : next.Coherent phase key id := by
  have hon : next.issued = true := by rw [hissued, h.issued, hrunners]; simp [hattempting]
  have hconverged : next.converging = true := by
    rcases h.runners with ⟨hnil, -⟩ | ⟨-, -, hconverges⟩
    · rw [hrunners] at hnil
      cases hnil
    · rw [hconverging, hconverges]
  refine ⟨hbinding.trans h.binding, Or.inr ⟨point, hnext, hconverged⟩, ?_, ?_, fun _ => Or.inl hon, ?_⟩
  · rw [hon, hnext]
    simp [hpoint]
  · intro _
    exact h.phase_issued (hissued ▸ hon)
  · rw [hnext]
    simpa using hcontainer

/-- The goroutine is outside an attempt, in `stopUnknown`. -/
theorem Stop.coherent_unknown {next : Stop} {key : ℕ} {id : Bytes} {point : Runner}
    (hnext : next.runners = [point]) (hpoint : point.attempting = false) (hbinding : next.binding = key)
    (hissued : next.issued = false) (hconverging : next.converging = true) :
    next.Coherent .stopUnknown key id := by
  refine ⟨hbinding, Or.inr ⟨point, hnext, hconverging⟩, ?_, by simp [hissued], by simp, ?_⟩
  · rw [hissued, hnext]
    simp [hpoint]
  · rw [hnext]
    intro runner hrunner carried hcarried
    obtain rfl := List.mem_singleton.1 hrunner
    cases runner <;> simp_all [Runner.attempting, Runner.container]

namespace Workload

/-- What `settleStopLocked` does in `stopIssued`: the stop is gone and its wait is closed. -/
theorem settleStopLocked_eq {w : Workload} (hphase : w.phase = .stopIssued) (env : Env) (stop : Stop)
    (result : StopResult) : ∃ phase active wait epoch idle failureStopped,
      w.settleStopLocked env stop result = { w with
        phase := phase, stop := none, active := active, closed := wait :: w.closed
        idleEpoch := epoch, idle := idle, failureStopped := failureStopped } ∧
      phase = (if stop.kind = .cleanup then .failed else if result = .succeeded then .dormant
        else .ready) := by
  have hready : ∃ active wait epoch idle,
      ({ ((w.settleTo .ready).reserveWaitersLocked stop.wait).1.armIdleLocked env with
          stop := none
          closed := ((w.settleTo .ready).reserveWaitersLocked stop.wait).2 ::
            (((w.settleTo .ready).reserveWaitersLocked stop.wait).1.armIdleLocked env).closed } :
        Workload) = { w with
        phase := .ready, stop := none, active := active, closed := wait :: w.closed
        idleEpoch := epoch, idle := idle } := by
    rw [settleTo_legal w .ready (by simp [hphase, Phase.transitions])]
    obtain ⟨active, hreserve⟩ :=
      Coherent.reserveWaitersLocked_frame { w with phase := .ready } stop.wait
    rw [hreserve]
    obtain ⟨epoch, idle, hframe⟩ :=
      armIdleLocked_frame env { w with phase := .ready, active := active }
    rw [hframe]
    exact ⟨active, _, epoch, idle, rfl⟩
  obtain ⟨active, wait, epoch, idle, heq⟩ := hready
  unfold settleStopLocked
  cases hkind : stop.kind with
  | cleanup =>
    refine ⟨.failed, w.active, stop.wait, w.idleEpoch, w.idle, result == .succeeded, ?_, by simp⟩
    dsimp only
    rw [settleTo_legal _ .failed (by simp [hphase, Phase.transitions])]
  | idle =>
    cases result with
    | succeeded =>
      refine ⟨.dormant, w.active, stop.wait, w.idleEpoch, w.idle, w.failureStopped, ?_, by simp⟩
      dsimp only
      rw [settleTo_legal w .dormant (by simp [hphase, Phase.transitions])]
    | rejected => exact ⟨.ready, active, wait, epoch, idle, w.failureStopped, heq, by simp⟩
    | ambiguous => exact ⟨.ready, active, wait, epoch, idle, w.failureStopped, heq, by simp⟩

namespace Coherent

variable {w : Workload} {stop : Stop}

theorem unsettled (h : w.Coherent) (hstop : w.stop = some stop) (next : Stop)
    (hbinding : next.binding = stop.binding) (hconverging : next.converging = true) :
    (w.unsettled next).Coherent :=
  have hphase := h.stop_phase hstop
  coherent_of_stop rfl (h.activation_none (by intro heq; simp [heq, Phase.stopping] at hphase)) rfl
    (h.stop_bound hstop)
    (Stop.coherent_unknown rfl rfl (hbinding.trans (h.stop stop hstop).binding) rfl hconverging)
    h.refused h.panicked

theorem settleStopLocked (h : w.Coherent) (hstop : w.stop = some stop)
    (hphase : w.phase = .stopIssued) (env : Env) (settled : Stop) (result : StopResult) :
    (w.settleStopLocked env settled result).Coherent := by
  obtain ⟨phase, active, wait, epoch, idle, failureStopped, heq, hsettled⟩ :=
    settleStopLocked_eq hphase env settled result
  have hcalm : phase = .failed ∨ phase = .dormant ∨ phase = .ready := by
    rw [hsettled]
    split_ifs <;> simp
  rw [heq]
  refine coherent_of_calm rfl (h.activation_none (by simp [hphase])) ?_ ?_
    (fun _ _ => h.stop_bound hstop) ?_ h.refused h.panicked
  · rcases hcalm with rfl | rfl | rfl <;> rfl
  · rcases hcalm with rfl | rfl | rfl <;> simp
  · rcases hcalm with rfl | rfl | rfl <;> simp

theorem converge {w' : Workload} {env : Env} {runner : Runner} {next : RunnerStep}
    {effects : List Effect} (h : w.Coherent) (hstop : w.stop = some stop)
    (hrunners : stop.runners = [runner]) (hstep : Converge env w stop runner next w' effects) :
    w'.Coherent := by
  have hcoherent := h.stop stop hstop
  have hconverging : stop.converging = true := (hcoherent.sole (n := 0) (by rw [hrunners]; rfl)).2.2
  have hissued : runner.attempting = true → w.phase = .stopIssued := by
    intro hattempting
    refine hcoherent.phase_issued ?_
    rw [hcoherent.issued, hrunners]
    simp [hattempting]
  have hunknown : runner ≠ .starting → runner.attempting = false →
      w.phase = .stopUnknown ∧ stop.issued = false := by
    intro hne hidle
    have hoff : stop.issued = false := by
      rw [hcoherent.issued, hrunners]
      simp [hidle]
    have hstopping := h.stop_phase hstop
    have hphase : w.phase ≠ .stopIssued := by
      intro heq
      rcases hcoherent.issued_phase heq with hon | hstarting
      · rw [hoff] at hon
        cases hon
      · rw [hrunners] at hstarting
        exact hne (List.singleton_inj.1 hstarting)
    refine ⟨?_, hoff⟩
    cases hp : w.phase <;> simp_all [Phase.stopping]
  -- Within an attempt only the goroutine's place and fields the invariant does not read change.
  have hgo : ∀ (next : Stop) (point : Runner), runner.attempting = true → point.attempting = true →
      (∀ carried ∈ point.container, carried = w.ownedID) → next.binding = stop.binding →
      next.issued = stop.issued → next.converging = stop.converging →
      (w.runnerAt next point).Coherent :=
    fun next point hfrom hto hcontainer hbinding hsame hconv =>
      h.setStop hstop _ (hcoherent.attempting hrunners hfrom point hto hcontainer rfl hbinding hsame
        hconv)
  cases hstep with
  | begin =>
    refine coherent_of_stop rfl (h.activation_none ?_) rfl (h.stop_bound hstop) ?_ h.refused
      h.panicked
    · intro heq
      have hphase := h.stop_phase hstop
      simp [heq, Phase.stopping] at hphase
    · exact ⟨hcoherent.binding, Or.inr ⟨_, rfl, hconverging⟩, rfl, fun _ => rfl,
        fun _ => Or.inl rfl, by simp [Runner.container]⟩
  | known | write | stored | unstored | reapply | attempt | answer | mark | recorded | delete =>
    exact hgo stop _ rfl rfl (by simp [Runner.container]) rfl rfl rfl
  | commit =>
    exact hgo { stop with persisted := true } _ rfl rfl (by simp [Runner.container]) rfl rfl rfl
  | invoke =>
    exact hgo { stop with invoked := true } _ rfl rfl (by simp [Runner.container]) rfl rfl rfl
  | doubt =>
    exact hgo { stop with doubted := true } _ rfl rfl (by simp [Runner.container]) rfl rfl rfl
  | defer | doubtful | undeleted => exact h.unsettled hstop stop rfl hconverging
  | ambiguous => exact h.unsettled hstop { stop with uncertain := true } rfl hconverging
  | @terminal result =>
    have hrun := hgo { stop with terminal := true, result := result } (.deleting w.ownedID result)
      rfl rfl (by simp [Runner.container]) rfl rfl rfl
    exact hrun.congr rfl rfl rfl rfl rfl rfl rfl
  | settle result =>
    exact settleStopLocked (w := w.invalidate) (h.congr rfl rfl rfl rfl rfl rfl rfl) hstop
      (hissued rfl) env _ result
  | retry | cease =>
    obtain ⟨hphase, hoff⟩ := hunknown (by simp) rfl
    refine h.setStop hstop _ ?_
    rw [hphase]
    exact Stop.coherent_unknown rfl rfl hcoherent.binding hoff hconverging
  | finish =>
    obtain ⟨hphase, hoff⟩ := hunknown (by simp) rfl
    refine h.setStop hstop _ ?_
    exact ⟨hcoherent.binding, Or.inl ⟨rfl, rfl⟩, hoff, by simp [hoff], by simp [hphase], by simp⟩

theorem ensureStopConvergenceLocked (h : w.Coherent) (env : Env) :
    (w.ensureStopConvergenceLocked env).Coherent := by
  unfold Workload.ensureStopConvergenceLocked
  split
  · exact h
  · rename_i stop hstop
    split
    · exact h
    · rename_i hidle
      have hcoherent := h.stop stop hstop
      have hconverging : stop.converging = false := by
        simp only [Bool.or_eq_true, not_or] at hidle
        simpa using hidle.1
      have hrunners : stop.runners = [] := by
        rcases hcoherent.runners with ⟨hnil, -⟩ | ⟨-, -, hconverges⟩
        · exact hnil
        · rw [hconverging] at hconverges
          cases hconverges
      have hoff : stop.issued = false := by rw [hcoherent.issued, hrunners]; rfl
      refine h.setStop hstop _ ⟨hcoherent.binding, Or.inr ⟨.starting, ?_, rfl⟩, ?_, ?_, ?_, ?_⟩
      · simp [hrunners]
      · simp [hoff, hrunners, Runner.attempting]
      · simp [hoff]
      · simp [hrunners]
      · simp [hrunners, Runner.container]

theorem recordObservedStopLocked (h : w.Coherent) (env : Env) :
    (w.recordObservedStopLocked env).1.Coherent := by
  unfold Workload.recordObservedStopLocked
  split
  · exact h
  · rename_i stop hstop
    have hcoherent := h.stop stop hstop
    have hset : ({ w with stop := some { stop with terminal := true, result := .succeeded } } :
        Workload).Coherent :=
      h.setStop hstop _ ⟨hcoherent.binding, hcoherent.runners, hcoherent.issued,
        hcoherent.phase_issued, hcoherent.issued_phase, hcoherent.container⟩
    dsimp only
    split
    · refine ensureStopConvergenceLocked ?_ env
      exact hset.congr rfl rfl rfl rfl rfl rfl rfl
    · exact hset.ensureStopConvergenceLocked env

/-! ### Discovery -/

/-- A workload without a stop gives up its binding. -/
theorem supersedeBindingLocked (h : w.Coherent) (hstop : w.stop = none) :
    w.supersedeBindingLocked.Coherent ∧
      (w.supersedeBindingLocked.phase = .dormant ∨ w.supersedeBindingLocked.phase = .failed) := by
  unfold Workload.supersedeBindingLocked
  split
  · rename_i hphase
    split
    · rename_i hact
      exact absurd (h.activation_iff) (by simp [hact, hphase])
    · rename_i act hact
      rw [moveTo_legal { w with
        activation := none, closed := { act.wait with superseded := true } :: w.closed } .dormant
        (Or.inl hstop) (by simp [hphase, Phase.transitions])]
      exact ⟨coherent_of_calm hstop rfl rfl (by simp) (by simp) (by simp) h.refused h.panicked,
        Or.inl rfl⟩
  · rename_i hphase
    refine ⟨h.drop (Or.inl hphase), Or.inl ?_⟩
    rw [h.drop_eq (Or.inl hphase)]
  · rename_i hphase
    refine ⟨h.drop (Or.inr hphase), Or.inl ?_⟩
    rw [h.drop_eq (Or.inr hphase)]
  · rename_i hphase
    exact absurd h.stop_iff (by simp [hstop, hphase, Phase.stopping])
  · rename_i hphase
    exact absurd h.stop_iff (by simp [hstop, hphase, Phase.stopping])
  · exact ⟨h, Or.inl ‹_›⟩
  · exact ⟨h, Or.inr ‹_›⟩

/-- A dormant or failed workload takes a new binding. -/
theorem newBindingLocked (h : w.Coherent) (hphase : w.phase = .dormant ∨ w.phase = .failed)
    (key : ℕ) (id : Bytes) : (w.newBindingLocked key id).Coherent := by
  have hstop : w.stop = none := by
    rcases hphase with hphase | hphase <;> exact h.stop_none (by rw [hphase]; rfl)
  refine coherent_of_calm hstop (h.activation_none ?_) ?_ ?_ (fun _ _ => rfl) ?_ h.refused h.panicked
  · rcases hphase with hphase | hphase <;> simp [hphase]
  · rcases hphase with hphase | hphase <;> simp [Workload.newBindingLocked, hphase, Phase.stopping]
  · rcases hphase with hphase | hphase <;> simp [Workload.newBindingLocked, hphase]
  · rcases hphase with hphase | hphase <;> simp [Workload.newBindingLocked, hphase]

/-- A workload with a stop is only ever bound to the container it has. -/
theorem bindWorkloadContainerLocked (h : w.Coherent) (key : ℕ) (id : Bytes)
    (hsame : w.stop.isSome = true → w.sameContainer id = true) :
    (w.bindWorkloadContainerLocked key id).1.Coherent ∧
      (w.bindWorkloadContainerLocked key id).1.binding.isSome = true := by
  unfold Workload.bindWorkloadContainerLocked
  split
  · rename_i hunbound
    refine ⟨h.newBindingLocked ?_ key id, rfl⟩
    by_contra hphase
    rw [not_or] at hphase
    have hbound := h.bound hphase.1 hphase.2
    simp_all
  · rename_i hbound
    split
    · rename_i hother
      have hstop : w.stop = none := by
        by_contra hstop
        have hsame := hsame (Option.isSome_iff_ne_none.2 hstop)
        simp [hsame] at hother
      obtain ⟨hsuperseded, hphase⟩ := h.supersedeBindingLocked hstop
      exact ⟨hsuperseded.newBindingLocked hphase key id, rfl⟩
    · exact ⟨h, by simpa [Option.isSome_iff_ne_none] using hbound⟩

theorem observeRunningWorkloadLocked (h : w.Coherent) (hbound : w.binding.isSome = true) (env : Env)
    (replaced : Bool) : (w.observeRunningWorkloadLocked env replaced).Coherent := by
  unfold Workload.observeRunningWorkloadLocked
  split
  · exact h.ensureStopConvergenceLocked env
  · exact h.ensureStopConvergenceLocked env
  · exact h.beginActivationLocked env true (Or.inl ‹_›) hbound
  · split
    · exact h
    · exact beginActivationLocked (w := w.clearFailureLocked) (h.congr rfl rfl rfl rfl rfl rfl rfl)
        env true (Or.inr ‹_›) hbound
  · exact h
  · exact h
  · exact h

theorem observeStoppedWorkloadLocked (h : w.Coherent) (env : Env) :
    (w.observeStoppedWorkloadLocked env).1.Coherent := by
  unfold Workload.observeStoppedWorkloadLocked
  split
  · exact h.drop (Or.inl ‹_›)
  · exact h.drop (Or.inr ‹_›)
  · split
    · exact h
    · split
      · exact h
      · exact h.recordObservedStopLocked env
  · split
    · exact h
    · split
      · exact h
      · exact h.recordObservedStopLocked env
  · exact h.congr rfl rfl rfl rfl rfl rfl rfl
  · exact h
  · exact h

theorem observeWorkloadLocked (h : w.Coherent) (env : Env) (key : ℕ) (id : Bytes) (running : Bool)
    (hsame : w.stop.isSome = true → w.sameContainer id = true) :
    (w.observeWorkloadLocked env key id running).1.Coherent := by
  obtain ⟨hcoherent, hbound⟩ := h.bindWorkloadContainerLocked key id hsame
  unfold Workload.observeWorkloadLocked
  dsimp only
  split
  · exact hcoherent.observeRunningWorkloadLocked hbound env _
  · exact hcoherent.observeStoppedWorkloadLocked env

/-- Unretiring keeps the stop and the binding. -/
theorem unretireLocked_frame (w : Workload) :
    w.unretireLocked.stop = w.stop ∧ w.unretireLocked.binding = w.binding := by
  unfold Workload.unretireLocked
  dsimp only
  split
  · exact ⟨rfl, rfl⟩
  · split
    · obtain ⟨phase, refused, epoch, hframe⟩ :=
        (({ w with retired := false } : Workload).moveTo .dormant).stopIdleLocked_frame
      obtain ⟨phase', refused', hmove⟩ := ({ w with retired := false } : Workload).moveTo_frame .dormant
      rw [hframe, hmove]
      exact ⟨rfl, rfl⟩
    · exact ⟨rfl, rfl⟩

theorem prepareObservation (h : w.Coherent) (env : Env) (key : ℕ) (id : Bytes) (running : Bool) :
    (w.prepareObservation env key id running).1.Coherent := by
  unfold Workload.prepareObservation
  split
  · exact h.retire
  · rename_i hother
    split
    · exact h
    · obtain ⟨hstop, hbinding⟩ := unretireLocked_frame w
      refine h.unretireLocked.observeWorkloadLocked env key id running ?_
      rw [hstop]
      intro hsome
      obtain ⟨stop, hstop⟩ := Option.isSome_iff_exists.1 hsome
      have hunsettled : w.hasUnsettledStop = true := by
        rw [hasUnsettledStop, hstop, h.stop_phase hstop]
        rfl
      have hbound := h.stop_bound hstop
      simpa [ownsMutationForOther, hunsettled, hbound, sameContainer, hbinding] using hother

theorem reconcileRetired (h : w.Coherent) (env : Env) (running : Bool) :
    (w.reconcileRetired env running).1.Coherent := by
  unfold Workload.reconcileRetired
  split
  · exact h
  · split
    · exact h
    · exact h.recordObservedStopLocked env

theorem appendRetiredRef (h : w.Coherent) (env : Env) : (w.appendRetiredRef env).Coherent := by
  unfold Workload.appendRetiredRef
  split
  · exact h.ensureStopConvergenceLocked env
  · exact h

theorem resume (h : w.Coherent) (env : Env) (armIdle : Bool) :
    (w.resume env armIdle).Coherent := by
  have harmed : (if armIdle && !w.retired && w.phase == .ready then w.armIdleLocked env
      else w).Coherent := by
    split
    · exact h.armIdleLocked env
    · exact h
  have hensured : ∀ {w : Workload}, w.Coherent →
      (if w.hasUnsettledStop then w.ensureStopConvergenceLocked env else w).Coherent := by
    intro w h
    split
    · exact h.ensureStopConvergenceLocked env
    · exact h
  exact hensured harmed

/-! ### Whole runs -/

theorem endLease (h : w.Coherent) (hw : w.Accounted) (env : Env) {lease : ℕ}
    (hlease : lease ∈ w.leases) : (w.endLease env lease).Coherent := by
  have hended : ({ w.addActive lease (-1) with leases := w.leases.erase lease } :
      Workload).Coherent := by
    refine ⟨h.stop_iff, h.activation_iff, h.bound, h.activation, h.stop, ?_, h.refused, h.panicked⟩
    intro hphase
    have hzero := h.pending hphase
    -- A pending stop has no lease on its binding, so the one that ends is on another.
    have hne : w.key ≠ lease := by
      rintro rfl
      exact ((hw.active_eq_zero_iff w.key).1 hzero).1 hlease
    exact (Function.update_of_ne hne _ _).trans hzero
  unfold Workload.endLease
  dsimp only
  split
  · exact hended
  · exact hended.armIdleLocked env

theorem leaveWait {w' : Workload} {env : Env} {claim : Bool} {wait : WaitRef} (h : w.Coherent)
    (hw : w.Accounted) (hleave : w.leaveWait env claim wait = some w') : w'.Coherent := by
  cases wait with
  | activation =>
    simp only [Workload.leaveWait] at hleave
    split at hleave
    · cases hleave
    · rename_i act hact
      obtain ⟨-, heq⟩ := Option.ite_none_left_eq_some.1 hleave
      rw [finishWaiting_unreserved (hw.activation hact).unreserved] at heq
      obtain rfl := Option.some.inj heq
      exact h.setActivation hact _ rfl
  | stop =>
    simp only [Workload.leaveWait] at hleave
    split at hleave
    · cases hleave
    · rename_i stop hstop
      obtain ⟨-, heq⟩ := Option.ite_none_left_eq_some.1 hleave
      rw [finishWaiting_unreserved (hw.stop hstop).unreserved] at heq
      obtain rfl := Option.some.inj heq
      have hcoherent := h.stop stop hstop
      exact h.setStop hstop _ ⟨hcoherent.binding, hcoherent.runners, hcoherent.issued,
        hcoherent.phase_issued, hcoherent.issued_phase, hcoherent.container⟩
  | closed n =>
    simp only [Workload.leaveWait] at hleave
    split at hleave
    · cases hleave
    · rename_i wait hwait
      obtain ⟨-, heq⟩ := Option.ite_none_left_eq_some.1 hleave
      by_cases hreserved : wait.reserved = 0
      · rw [finishWaiting_unreserved hreserved] at heq
        obtain rfl := Option.some.inj heq
        exact h.congr rfl rfl rfl rfl rfl rfl rfl
      · obtain ⟨epoch, idle, hfinish⟩ := finishWaiting_reserved env w claim hreserved
        rw [hfinish] at heq
        obtain rfl := Option.some.inj heq
        refine ⟨h.stop_iff, h.activation_iff, h.bound, h.activation, h.stop, ?_, h.refused,
          h.panicked⟩
        intro hphase
        have hzero := h.pending hphase
        -- A pending stop has no reservation on its binding either.
        have hne : w.key ≠ wait.lease := by
          intro hkey
          have hnone := ((hw.active_eq_zero_iff w.key).1 hzero).2
          have hpos := reservations_pos hw.closed (List.mem_of_getElem? hwait) hreserved
          rw [← hkey] at hpos
          exact absurd hpos (by rw [hnone]; decide)
        dsimp only
        split
        · exact hzero
        · exact (Function.update_of_ne hne _ _).trans hzero

theorem step {w' : Workload} {env : Env} {a : Action} {effects : List Effect} (h : w.Coherent)
    (hw : w.Accounted) (hstep : w.step env a = some (w', effects)) : w'.Coherent := by
  cases step_move hstep with
  | serveState binding => exact h.serveState env binding
  | finishWaiting hleft => exact h.leaveWait hw hleft
  | endLease hlease => exact h.endLease hw env hlease
  | claimIdleStop binding epoch => exact h.claimIdleStop hw binding epoch
  | revokeIdleStop binding epoch => exact h.revokeIdleStop binding epoch
  | performStop binding epoch => exact h.performStop binding epoch
  | probe hact => exact h.setActivation hact _ rfl
  | settleActivation hact => exact h.settleActivation env hact _
  | runner hstop hrunner hmove =>
    exact h.converge hstop ((h.stop _ hstop).sole hrunner).2.1 (hmove.converge h hstop hrunner)
  | prepareObservation hkey id running => exact h.prepareObservation env _ id running
  | retire => exact h.retire
  | reconcileRetired running => exact h.reconcileRetired env running
  | appendRetiredRef => exact h.appendRetiredRef env
  | resume armIdle => exact h.resume env armIdle
  | stopIdle => exact h.stopIdleLocked

end Coherent

theorem coherent_registered (service : Bytes) (hadBinding : Bool) (failures failedUntil : ℕ) :
    (registered service hadBinding failures failedUntil).Coherent := by
  have hphase : (registered service hadBinding failures failedUntil).phase = .dormant ∨
      (registered service hadBinding failures failedUntil).phase = .failed := by
    dsimp only [registered]
    split
    · exact Or.inr rfl
    · exact Or.inl rfl
  refine coherent_of_calm rfl rfl ?_ ?_ ?_ ?_ rfl rfl
  · rcases hphase with hphase | hphase <;> rw [hphase] <;> rfl
  · rcases hphase with hphase | hphase <;> simp [hphase]
  · rcases hphase with hphase | hphase <;> simp [hphase]
  · rcases hphase with hphase | hphase <;> simp [hphase]

theorem coherent_restored (service : Bytes) (kind : StopKind) (key : ℕ) (id : Bytes) :
    (restored service kind key id).Coherent :=
  coherent_of_stop rfl rfl rfl rfl
    ⟨rfl, Or.inl ⟨rfl, rfl⟩, rfl, by simp [restored], by simp [restored], by simp⟩ rfl rfl

end Workload

/-- Every reachable workload is coherent. -/
theorem coherent_reachable {w : Workload} (h : workloadMachine.Reachable w) : w.Coherent := by
  refine h.invariant ?_ ?_
  · rintro w (⟨service, hadBinding, failures, failedUntil, rfl⟩ | ⟨service, kind, key, id, rfl⟩)
    · exact Workload.coherent_registered service hadBinding failures failedUntil
    · exact Workload.coherent_restored service kind key id
  · rintro w ⟨env, a⟩ w' hreach hw hstep
    obtain ⟨⟨next, effects⟩, hnext, rfl⟩ := Option.map_eq_some_iff.1 hstep
    exact hw.step (accounted_reachable hreach) hnext

/-- **Phase coherence.**  In every interleaving of a workload's sections, its stop and its activation
are there exactly in their phases, a pending stop has neither and no activity on its binding,
`newStopLocked` has not panicked, and no transition whose result was ignored has been refused. -/
theorem phase_coherent {w : Workload} (h : workloadMachine.Reachable w) :
    (w.stop.isSome = true ↔ w.phase = .stopIssued ∨ w.phase = .stopUnknown) ∧
      (w.activation.isSome = true ↔ w.phase = .starting) ∧
      (w.phase = .stopPending →
        w.stop = none ∧ w.activation = none ∧ w.binding.isSome = true ∧ w.active w.key = 0) ∧
      w.panicked = false ∧ w.refused = false := by
  have hw := coherent_reachable h
  refine ⟨?_, ?_, ?_, hw.panicked, hw.refused⟩
  · rw [hw.stop_iff]
    cases w.phase <;> simp [Phase.stopping]
  · rw [hw.activation_iff, beq_iff_eq]
  · intro hphase
    exact ⟨hw.stop_none (by rw [hphase]; rfl), hw.activation_none (by simp [hphase]),
      hw.bound (by simp [hphase]) (by simp [hphase]), hw.pending hphase⟩

/-- A provider run with idle stops. -/
def running : Env := { tracked := true, idleStops := true }

/-- A container found running is proved ready and claimed by its idle timer. -/
def idleRun : List (Env × Action) :=
  [(running, .prepareObservation 1 (lit "c1") true), (running, .probe),
    (running, .settleActivation .ready), (running, .claimIdleStop 1 1)]

theorem phase_coherent_idleRun : ∃ w, workloadMachine.Reachable w ∧ w.phase = .stopPending ∧
    w.stop = none ∧ w.activation = none ∧ w.active 1 = 0 := by
  have hstart : workloadMachine.Reachable (.registered (lit "web") false 0 0) :=
    .start (Or.inl ⟨_, _, _, _, rfl⟩)
  have hreach := hstart.run (show workloadMachine.run _ idleRun = some _ from rfl)
  have hpending := (phase_coherent hreach).2.2.1 rfl
  exact ⟨_, hreach, rfl, hpending.1, hpending.2.1, hpending.2.2.2⟩

end Statute.Lifecycle
