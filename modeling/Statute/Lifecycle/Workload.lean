import Mathlib.Logic.Function.Basic
import Mathlib.Data.Int.Notation
import Mathlib.Tactic.Common
import Statute.Base.Bytes
import Statute.Base.Machine

/-!
# One on-demand workload

The state of a `workload` of `workload.go` and the sections its goroutines run under `w.mu`: request
entry and exit, the idle timer, activation settlement, the convergence of an owned stop, and
discovery.  Every section is a function on the record, under the source's name.

Three liberties are taken.  A Docker listing names every container by its ID, so a binding always
carries one and the name-only branches are dead.  When a timer fires and how long a backoff window
is are decided by the environment.  Goroutines of `runOwnedStop` are kept in the stop they work for,
each with the point it has reached.

Fields marked *ghost* are not in the source; no section reads them to decide anything.
-/

namespace Statute.Lifecycle

open Statute.Base

/-! ### Phases -/

/-- `workloadPhase`. -/
inductive Phase where
  | dormant
  | starting
  | ready
  | stopPending
  | stopIssued
  | stopUnknown
  | failed
deriving DecidableEq, Repr

/-- `workloadTransitions`. -/
def Phase.transitions : Phase → List Phase
  | .dormant => [.starting]
  | .starting => [.ready, .stopIssued, .failed, .dormant]
  | .ready => [.stopPending, .dormant]
  | .stopPending => [.ready, .stopIssued, .dormant]
  | .stopIssued => [.dormant, .ready, .stopUnknown, .failed]
  | .stopUnknown => [.dormant, .stopIssued, .failed]
  | .failed => [.starting, .dormant]

/-- The two phases of an owned stop. -/
def Phase.stopping : Phase → Bool
  | .stopIssued => true
  | .stopUnknown => true
  | _ => false

/-! ### What a workload owns -/

/-- `workloadWait`, with the number of requests that really wait on it (*ghost*).  A lease is the key
of its binding. -/
structure Wait where
  waiting : ℤ := 0
  reserved : ℤ := 0
  lease : ℕ := 0
  superseded : Bool := false
  failed : Bool := false
  requests : ℕ := 0
deriving DecidableEq, Repr

/-- One more request waits. -/
def Wait.join (wait : Wait) : Wait :=
  { wait with waiting := wait.waiting + 1, requests := wait.requests + 1 }

/-- `workloadActivation`.  `probed` is what its goroutine knows: a readiness probe succeeded. -/
structure Activation where
  observe : Bool
  binding : ℕ
  wait : Wait := {}
  probed : Bool := false
deriving DecidableEq, Repr

/-- `workloadStopKind`. -/
inductive StopKind where
  | idle
  | cleanup
deriving DecidableEq, Repr

/-- `workloadStopResult`. -/
inductive StopResult where
  | succeeded
  | rejected
  | ambiguous
deriving DecidableEq, Repr

/-- Where a goroutine of `runOwnedStop` stands. -/
inductive Runner where
  /-- Before `beginStopAttempt`. -/
  | starting
  /-- In `persistOwnedStop`, before its first section. -/
  | persisting
  /-- In `registry.put`, with the container ID of the record. -/
  | putting (id : Bytes)
  /-- `put` returned nil; before the second section of `persistOwnedStop`. -/
  | committing (id : Bytes)
  /-- `persistOwnedStop` failed; before `deferOwnedStop`. -/
  | deferring
  /-- The intent is durable; before `stopResult`. -/
  | reading
  /-- Before the call of `StopContainer`. -/
  | invoking
  /-- `StopContainer` is in flight. -/
  | calling
  /-- The answer was ambiguous; before `markOwnedStopUncertain`. -/
  | marking
  /-- Before the first section of `applyStopAttempt`. -/
  | applying (result : StopResult)
  /-- In `registry.delete`, with the container ID and the recorded result. -/
  | deleting (id : Bytes) (result : StopResult)
  /-- After `delete`; before the second section of `applyStopAttempt`. -/
  | settling (id : Bytes) (result : StopResult) (deleted : Bool)
  /-- In `waitStopRetry`. -/
  | waiting
  /-- Before the deferred `finishStopConvergence`. -/
  | finishing
deriving DecidableEq, Repr

/-- `workloadStop`, with the goroutines converging it.  *Ghost*: its place among the workload's stops,
whether `StopContainer` was called for it, and whether an answer was ambiguous or the stop was
restored from disk. -/
structure Stop where
  kind : StopKind
  binding : ℕ
  issued : Bool := false
  uncertain : Bool := false
  converging : Bool := false
  persisted : Bool := false
  terminal : Bool := false
  result : StopResult := .succeeded
  wait : Wait := {}
  runners : List Runner := []
  serial : ℕ := 0
  invoked : Bool := false
  doubted : Bool := false
deriving DecidableEq, Repr

/-- The stop with one of its goroutines moved on. -/
def Stop.moveRunner (stop : Stop) (n : ℕ) (next : Runner) : Stop :=
  { stop with runners := stop.runners.set n next }

/-- `workloadBinding`, without its activity counter. -/
structure Binding where
  key : ℕ
  containerID : Bytes
deriving DecidableEq, Repr

/-- `workload`.  The activity counters of all its bindings, past ones included, are one function of
the binding key.  *Ghost*: the waits whose channel is closed, the leases handed out and not ended, the
largest binding key so far, the number of stops, and whether an ignored transition was refused or
`newStopLocked` panicked. -/
structure Workload where
  service : Bytes
  phase : Phase := .dormant
  binding : Option Binding := none
  hadBinding : Bool := false
  retired : Bool := false
  activation : Option Activation := none
  stop : Option Stop := none
  idle : Bool := false
  idleEpoch : ℕ := 0
  failures : ℕ := 0
  failedUntil : ℕ := 0
  failureStopped : Bool := false
  observationEpoch : ℕ := 0
  active : ℕ → ℤ := fun _ => 0
  closed : List Wait := []
  leases : List ℕ := []
  lastKey : ℕ := 0
  stops : ℕ := 0
  refused : Bool := false
  panicked : Bool := false

/-- What a section does outside the workload: `invalidateWorkloadObservationsLocked`, which also
bumps the provider's counter, and the lifecycle events a publication is fenced against. -/
inductive Effect where
  | invalidate
  | activationSettled
  | stopInstalled
  | stopTerminal
  | stopSettled (key : ℕ) (result : StopResult)
  | stoppedOutside (key : ℕ)
deriving DecidableEq, Repr

/-- What a section reads of the provider and the clock: whether the run accepts goroutines, whether
idle stops are enabled, the time, and the backoff window a failure opens. -/
structure Env where
  tracked : Bool
  idleStops : Bool
  now : ℕ := 0
  backoff : ℕ := 0
deriving DecidableEq, Repr

namespace Workload

/-! ### Transitions -/

/-- The key of the current binding; zero without one, as in `currentBinding`. -/
def key (w : Workload) : ℕ :=
  match w.binding with
  | none => 0
  | some b => b.key

variable (env : Env) (w : Workload) (stop : Stop) (n : ℕ) (id : Bytes)

def transitionLocked (next : Phase) : Workload × Bool :=
  if w.phase.transitions.contains next then ({ w with phase := next }, true) else (w, false)

def toLocked (next : Phase) : Workload × Bool :=
  if w.stop.isSome && next != .stopIssued && next != .stopUnknown then (w, false)
  else w.transitionLocked next

/-- The workload after a transition whose result the caller ignores. -/
def ignoring (r : Workload × Bool) : Workload :=
  if r.2 then r.1 else { r.1 with refused := true }

/-- `toLocked` with its result ignored. -/
def moveTo (next : Phase) : Workload := ignoring (w.toLocked next)

/-- `transitionLocked` with its result ignored. -/
def settleTo (next : Phase) : Workload := ignoring (w.transitionLocked next)

/-- `invalidateWorkloadObservationsLocked`, inside the workload. -/
def invalidate : Workload := { w with observationEpoch := w.observationEpoch + 1 }

def clearFailureLocked : Workload :=
  { w with failures := 0, failedUntil := 0, failureStopped := false }

/-! ### Activity -/

/-- `active += n` on the counter of one binding. -/
def addActive (key : ℕ) (n : ℤ) : Workload :=
  { w with active := Function.update w.active key (w.active key + n) }

def armIdleLocked : Workload :=
  if w.phase != .ready || 0 < w.active w.key || w.retired || !env.idleStops then w
  else { w with idleEpoch := w.idleEpoch + 1, idle := true }

def stopIdleLocked : Workload :=
  let w := { w with idleEpoch := w.idleEpoch + 1, idle := false }
  if w.phase = .stopPending then w.moveTo .ready else w

/-- `beginLocked`: the request's lease is handed out. -/
def beginLocked : Workload :=
  { w.addActive w.key 1 with idle := false, leases := w.key :: w.leases }

/-- `end`. -/
def endLease (lease : ℕ) : Workload :=
  let w := { w.addActive lease (-1) with leases := w.leases.erase lease }
  if w.binding.isNone || w.key != lease then w else w.armIdleLocked env

/-- `reserveWaitersLocked`: the counter goes up for all waiters at once. -/
def reserveWaitersLocked (wait : Wait) : Workload × Wait :=
  if wait.waiting = 0 then (w, wait)
  else (w.addActive w.key wait.waiting, { wait with reserved := wait.waiting, lease := w.key })

/-- `finishWaiting`: the request gives up its place and claims or returns its reservation. -/
def finishWaiting (wait : Wait) (claim : Bool) : Workload × Wait :=
  let wait := { wait with waiting := wait.waiting - 1, requests := wait.requests - 1 }
  let failed := wait.superseded || wait.failed
  if wait.reserved = 0 then (w, wait)
  else
    let wait := { wait with reserved := wait.reserved - 1 }
    if failed || !claim || w.binding.isNone || w.key != wait.lease then
      let w := w.addActive wait.lease (-1)
      (if w.binding.isSome && w.key == wait.lease then w.armIdleLocked env else w, wait)
    else ({ w with leases := wait.lease :: w.leases }, wait)

/-! ### Activation -/

def beginActivationLocked (observe : Bool) : Workload × Bool :=
  if w.retired then (w, false)
  else
    let (next, moved) := w.toLocked .starting
    if !moved then (w, false)
    else if env.tracked then
      ({ next with activation := some { observe := observe, binding := w.key } }, true)
    else (({ next with activation := none } : Workload).moveTo .dormant, false)

def beginAndWait (observe : Bool) : Workload :=
  let (w, begun) := w.beginActivationLocked env observe
  if begun then
    { w with activation := w.activation.map (fun act => { act with wait := act.wait.join }) }
  else w

def serveCurrentStateLocked : Workload :=
  match w.phase with
  | .ready => w.beginLocked
  | .stopPending => (w.moveTo .ready).beginLocked
  | .failed => if env.now < w.failedUntil then w else w.beginAndWait env (!w.failureStopped)
  | .dormant => w.beginAndWait env false
  | .starting =>
    { w with activation := w.activation.map (fun act => { act with wait := act.wait.join }) }
  | .stopIssued => { w with stop := w.stop.map (fun stop => { stop with wait := stop.wait.join }) }
  | .stopUnknown => w

def serveState (expected : ℕ) : Workload :=
  if w.binding.isNone || w.key != expected then w else w.serveCurrentStateLocked env

/-- How an activation ended: `context.Canceled`, `errWorkloadStopped` and every other error are told
apart. -/
inductive Ended where
  | ready
  | cancelled
  | stopped
  | failed
deriving DecidableEq, Repr

/-- `newStopLocked`.  Its caller goes on to `runOwnedStop`. -/
def newStopLocked (kind : StopKind) (binding : ℕ) : Workload :=
  if w.stop.isSome then { w with panicked := true }
  else
    { w.invalidate with
      stop := some { kind := kind, binding := binding, converging := true, runners := [.starting],
                     serial := w.stops }
      stops := w.stops + 1 }

/-- The failure branch of `settleActivation`. -/
def failActivation (act : Activation) : Workload × List Effect :=
  let w := { w with
    failures := w.failures + 1, failedUntil := env.now + env.backoff, failureStopped := false }
  if !act.observe && !w.retired then
    ((w.moveTo .stopIssued).newStopLocked .cleanup act.binding, [.invalidate, .stopInstalled])
  else (w.moveTo .failed, [])

/-- `settleActivation`, for the current activation; that of any other one changes nothing. -/
def settleActivation (act : Activation) (ended : Ended) : Workload × List Effect :=
  let w := w.invalidate
  let wait := { act.wait with failed := ended != .ready }
  match ended with
  | .ready =>
    let (w, wait) := (w.moveTo .ready).clearFailureLocked.reserveWaitersLocked wait
    let w := w.armIdleLocked env
    ({ w with activation := none, closed := wait :: w.closed }, [.invalidate, .activationSettled])
  | .cancelled =>
    let w := w.moveTo .dormant
    ({ w with activation := none, closed := wait :: w.closed }, [.invalidate, .activationSettled])
  | .stopped =>
    let (w, effects) := if act.observe then (w.moveTo .dormant, []) else w.failActivation env act
    ({ w with activation := none, closed := wait :: w.closed },
      .invalidate :: .activationSettled :: effects)
  | .failed =>
    let (w, effects) := w.failActivation env act
    ({ w with activation := none, closed := wait :: w.closed },
      .invalidate :: .activationSettled :: effects)

/-! ### The idle timer -/

def claimIdleStop (binding epoch : ℕ) : Workload :=
  if w.phase != .ready || w.binding.isNone || w.key != binding || w.idleEpoch != epoch ||
      0 < w.active w.key || w.retired then w
  else ({ w with idle := false } : Workload).moveTo .stopPending

def revokeIdleStop (binding epoch : ℕ) : Workload :=
  if w.phase == .stopPending && w.binding.isSome && w.key == binding && w.idleEpoch == epoch then
    w.moveTo .ready
  else w

/-- `performStop`, up to `runOwnedStop`. -/
def performStop (binding epoch : ℕ) : Workload × List Effect :=
  if w.phase != .stopPending || w.binding.isNone || w.key != binding || w.idleEpoch != epoch then
    (w, [])
  else if w.retired then (w.moveTo .ready, [])
  else ((w.moveTo .stopIssued).newStopLocked .idle w.key, [.invalidate, .stopInstalled])

/-! ### Converging an owned stop -/

/-- `stop` is the workload's and its binding is the current one, as `stopOwnershipLocked` tests. -/
def owns : Bool := w.binding.isSome && w.key == stop.binding

/-- `currentLocked` of an ownership captured with a container ID. -/
def ownsContainer : Bool :=
  w.owns stop && w.binding.any (fun b => b.containerID == id)

/-- The container ID an ownership captures. -/
def ownedID : Bytes :=
  match w.binding with
  | none => []
  | some b => b.containerID

def unsettleStopLocked : Workload :=
  let w := { w with stop := some { stop with issued := false } }
  if w.phase = .stopIssued then w.moveTo .stopUnknown else w

def beginStopAttempt : Workload :=
  if !w.owns stop then { w with stop := some (stop.moveRunner n .finishing) }
  else
    let w := if w.phase = .stopUnknown then w.moveTo .stopIssued else w
    { w with stop := some ({ stop with issued := true }.moveRunner n .persisting) }

/-- The first section of `persistOwnedStop`. -/
def persistOwnedStop : Workload :=
  let next : Runner :=
    if !w.owns stop then .deferring else if stop.persisted then .reading else .putting w.ownedID
  { w with stop := some (stop.moveRunner n next) }

/-- The second section of `persistOwnedStop`, after `put` returned nil. -/
def commitOwnedStop : Workload :=
  if !w.ownsContainer stop id then { w with stop := some (stop.moveRunner n .deferring) }
  else { w with stop := some ({ stop with persisted := true }.moveRunner n .reading) }

def deferOwnedStop : Workload :=
  if !w.owns stop then { w with stop := some (stop.moveRunner n .finishing) }
  else w.unsettleStopLocked (stop.moveRunner n .waiting)

/-- `stopResult`, and where `executeOwnedStopAttempt` goes from there. -/
def readStopResult : Workload :=
  { w with stop := some (stop.moveRunner n
      (if stop.terminal then .applying stop.result else .invoking)) }

/-- `StopContainer` is called. -/
def invokeStop : Workload :=
  { w with stop := some ({ stop with invoked := true }.moveRunner n .calling) }

/-- `attemptOwnedStop` returns. -/
def answerStop (result : StopResult) : Workload :=
  if result = .ambiguous then
    { w with stop := some ({ stop with doubted := true }.moveRunner n .marking) }
  else { w with stop := some (stop.moveRunner n (.applying result)) }

/-- The first section of `applyStopAttempt`. -/
def applyStopAttempt (result : StopResult) : Workload × List Effect :=
  if !w.owns stop then ({ w with stop := some (stop.moveRunner n .finishing) }, [])
  else if result = .ambiguous then
    (w.unsettleStopLocked ({ stop with uncertain := true }.moveRunner n .waiting), [])
  else if result = .rejected ∧ stop.uncertain then
    (w.unsettleStopLocked (stop.moveRunner n .waiting), [])
  else if !stop.terminal then
    ({ w.invalidate with
        stop := some ({ stop with terminal := true, result := result }.moveRunner n
          (.deleting w.ownedID result)) },
      [.invalidate, .stopTerminal])
  else ({ w with stop := some (stop.moveRunner n (.deleting w.ownedID stop.result)) }, [])

def settleStopLocked (result : StopResult) : Workload :=
  match stop.kind, result with
  | .cleanup, _ =>
    let w := ({ w with failureStopped := result == .succeeded } : Workload).settleTo .failed
    { w with stop := none, closed := stop.wait :: w.closed }
  | .idle, .succeeded =>
    let w := w.settleTo .dormant
    { w with stop := none, closed := stop.wait :: w.closed }
  | .idle, _ =>
    let (w, wait) := (w.settleTo .ready).reserveWaitersLocked stop.wait
    let w := w.armIdleLocked env
    { w with stop := none, closed := wait :: w.closed }

/-- The second section of `applyStopAttempt`. -/
def settleStopAttempt (result : StopResult) (deleted : Bool) : Workload × List Effect :=
  if !w.ownsContainer stop id then ({ w with stop := some (stop.moveRunner n .finishing) }, [])
  else if !deleted then (w.unsettleStopLocked (stop.moveRunner n .waiting), [])
  else
    (w.invalidate.settleStopLocked env { stop with issued := false } result,
      [.invalidate, .stopSettled stop.binding result])

/-- `waitStopRetry`; `retry` is false when the run's context is done. -/
def waitStopRetry (retry : Bool) : Workload :=
  { w with stop := some (stop.moveRunner n
      (if retry && w.owns stop then .starting else .finishing)) }

def finishStopConvergence : Workload :=
  { w with stop := some { stop with converging := false, runners := stop.runners.eraseIdx n } }

def ensureStopConvergenceLocked : Workload :=
  match w.stop with
  | none => w
  | some stop =>
    if stop.converging || !env.tracked then w
    else
      let stop := { stop with converging := true, runners := stop.runners ++ [.starting] }
      { w with stop := some stop }

/-! ### Discovery -/

def supersedeBindingLocked : Workload :=
  match w.phase with
  | .starting =>
    match w.activation with
    | none => w.moveTo .dormant
    | some act =>
      ({ w with
          activation := none
          closed := { act.wait with superseded := true } :: w.closed } : Workload).moveTo .dormant
  | .ready => (w.moveTo .dormant).stopIdleLocked
  | .stopPending => (w.moveTo .dormant).stopIdleLocked
  | .stopIssued | .stopUnknown =>
    match w.stop with
    | none => w.moveTo .dormant
    | some stop =>
      ({ w with
          stop := none
          closed := { stop.wait with superseded := true } :: w.closed } : Workload).moveTo .dormant
  | .dormant | .failed => w

/-- `newWorkloadBindingLocked`, with the key the provider allocates. -/
def newBindingLocked (key : ℕ) (id : Bytes) : Workload :=
  { w with
    binding := some ⟨key, id⟩
    hadBinding := true
    active := Function.update w.active key 0
    lastKey := key }

/-- `sameContainerLocked`. -/
def sameContainer : Bool := w.binding.any (fun b => b.containerID == id)

def bindWorkloadContainerLocked (key : ℕ) (id : Bytes) : Workload × Bool :=
  if w.binding.isNone then (w.newBindingLocked key id, false)
  else if !w.sameContainer id then (w.supersedeBindingLocked.newBindingLocked key id, true)
  else (w, false)

def recordObservedStopLocked : Workload × List Effect :=
  match w.stop with
  | none => (w, [])
  | some stop =>
    let first := !stop.terminal
    let w := if first then w.invalidate else w
    let w := { w with stop := some { stop with terminal := true, result := .succeeded } }
    (w.ensureStopConvergenceLocked env, if first then [.invalidate, .stopTerminal] else [])

def observeRunningWorkloadLocked (replaced : Bool) : Workload :=
  match w.phase with
  | .stopIssued | .stopUnknown => w.ensureStopConvergenceLocked env
  | .dormant => (w.beginActivationLocked env true).1
  | .failed =>
    if !replaced && !w.failureStopped then w
    else (w.clearFailureLocked.beginActivationLocked env true).1
  | .starting | .ready | .stopPending => w

def observeStoppedWorkloadLocked : Workload × List Effect :=
  match w.phase with
  | .ready | .stopPending => ((w.moveTo .dormant).stopIdleLocked, [.stoppedOutside w.key])
  | .stopIssued | .stopUnknown =>
    match w.stop with
    | none => (w, [])
    | some stop => if stop.issued then (w, []) else w.recordObservedStopLocked env
  | .failed => ({ w with failureStopped := true }, [])
  | .dormant | .starting => (w, [])

def observeWorkloadLocked (key : ℕ) (id : Bytes) (running : Bool) : Workload × List Effect :=
  let detached := w.binding.isNone && w.hadBinding
  let (w, replaced) := w.bindWorkloadContainerLocked key id
  if running then (w.observeRunningWorkloadLocked env (detached || replaced), [])
  else w.observeStoppedWorkloadLocked env

def unretireLocked : Workload :=
  if !w.retired then w
  else
    let w := { w with retired := false }
    if w.phase = .ready ∨ w.phase = .stopPending then (w.moveTo .dormant).stopIdleLocked else w

/-- `hasUnsettledStopLocked`. -/
def hasUnsettledStop : Bool := w.stop.isSome && w.phase.stopping

/-- `ownsIssuedMutationForOtherContainerLocked`. -/
def ownsMutationForOther : Bool :=
  w.hasUnsettledStop && w.binding.isSome && !w.sameContainer id

/-- The workload's part of retirement in `retireMissingLocked` and `detachMutationOwnerHeldLocked`. -/
def retire : Workload := ({ w with retired := true } : Workload).stopIdleLocked

/-- `prepareWorkloadObservationLocked` on a registered workload.  The first branch detaches it. -/
def prepareObservation (key : ℕ) (id : Bytes) (running : Bool) : Workload × List Effect :=
  if w.ownsMutationForOther id then (w.retire, [])
  else if w.retired && w.hasUnsettledStop then (w, [])
  else w.unretireLocked.observeWorkloadLocked env key id running

/-- `reconcileRetiredMutationObservationLocked`; `running` says that the listing has the container
running. -/
def reconcileRetired (running : Bool) : Workload × List Effect :=
  match w.stop with
  | none => (w, [])
  | some stop =>
    if !w.retired || !w.hasUnsettledStop || w.binding.isNone || stop.issued || running then (w, [])
    else w.recordObservedStopLocked env

/-- The test of `appendRetiredMutationRefLocked`. -/
def quarantines : Bool :=
  w.retired && w.phase.stopping && w.stop.any (fun stop => w.owns stop)

/-- `appendRetiredMutationRefLocked`, inside the workload. -/
def appendRetiredRef : Workload :=
  if w.quarantines then w.ensureStopConvergenceLocked env else w

/-- `resumeWorkloadLifecycleLocked`. -/
def resume (armIdle : Bool) : Workload :=
  let w := if armIdle && !w.retired && w.phase == .ready then w.armIdleLocked env else w
  if w.hasUnsettledStop then w.ensureStopConvergenceLocked env else w

end Workload

/-! ### Interleavings -/

/-- The wait a request holds: that of the activation or stop in progress, or one already closed. -/
inductive WaitRef where
  | activation
  | stop
  | closed (n : ℕ)
deriving DecidableEq, Repr

/-- The steps of a goroutine of `runOwnedStop`, with the answers of the registry and of Docker. -/
inductive RunnerStep where
  | begin
  | persist
  | put (stored : Bool)
  | commit
  | defer
  | read
  | invoke
  | answer (result : StopResult)
  | mark
  | apply
  | delete (deleted : Bool)
  | settle
  | retry (again : Bool)
  | finish
deriving DecidableEq, Repr

/-- The sections of a workload, with what the environment decides. -/
inductive Action where
  /-- A request enters through a gate of this binding. -/
  | serveState (binding : ℕ)
  /-- A waiting request is woken (`claim`) or cancelled. -/
  | finishWaiting (wait : WaitRef) (claim : Bool)
  /-- A request ends its lease. -/
  | endLease (lease : ℕ)
  | claimIdleStop (binding epoch : ℕ)
  | revokeIdleStop (binding epoch : ℕ)
  | performStop (binding epoch : ℕ)
  /-- A readiness probe of the activation succeeds. -/
  | probe
  | settleActivation (ended : Workload.Ended)
  /-- A goroutine of `runOwnedStop` moves on. -/
  | runner (n : ℕ) (step : RunnerStep)
  | prepareObservation (key : ℕ) (id : Bytes) (running : Bool)
  | retire
  | reconcileRetired (running : Bool)
  | appendRetiredRef
  | resume (armIdle : Bool)
  | stopIdle
deriving DecidableEq, Repr

namespace Workload

/-- A request leaves the wait it holds.  Before the channel is closed only cancellation ends a
wait. -/
def leaveWait (env : Env) (w : Workload) (claim : Bool) : WaitRef → Option Workload
  | .activation =>
    match w.activation with
    | none => none
    | some act =>
      if claim || act.wait.requests = 0 then none
      else
        let (w, wait) := w.finishWaiting env act.wait claim
        some { w with activation := some { act with wait := wait } }
  | .stop =>
    match w.stop with
    | none => none
    | some stop =>
      if claim || stop.wait.requests = 0 then none
      else
        let (w, wait) := w.finishWaiting env stop.wait claim
        some { w with stop := some { stop with wait := wait } }
  | .closed n =>
    match w.closed[n]? with
    | none => none
    | some wait =>
      if wait.requests = 0 then none
      else
        let (w, wait) := w.finishWaiting env wait claim
        some { w with closed := w.closed.set n wait }

/-- One step of the `n`-th goroutine of the stop, from the point it has reached. -/
def runnerStep (env : Env) (w : Workload) (stop : Stop) (n : ℕ) :
    Runner → RunnerStep → Option (Workload × List Effect)
  | .starting, .begin => some (w.beginStopAttempt stop n, [])
  | .persisting, .persist => some (w.persistOwnedStop stop n, [])
  | .putting id, .put stored =>
    let next : Runner := if stored then .committing id else .deferring
    some ({ w with stop := some (stop.moveRunner n next) }, [])
  | .committing id, .commit => some (w.commitOwnedStop stop n id, [])
  | .deferring, .defer => some (w.deferOwnedStop stop n, [])
  | .reading, .read => some (w.readStopResult stop n, [])
  | .invoking, .invoke => some (w.invokeStop stop n, [])
  | .calling, .answer result => some (w.answerStop stop n result, [])
  | .marking, .mark =>
    some ({ w with stop := some (stop.moveRunner n (.applying .ambiguous)) }, [])
  | .applying result, .apply => some (w.applyStopAttempt stop n result)
  | .deleting id result, .delete deleted =>
    some ({ w with stop := some (stop.moveRunner n (.settling id result deleted)) }, [])
  | .settling id result deleted, .settle =>
    some (w.settleStopAttempt env stop n id result deleted)
  | .waiting, .retry again => some (w.waitStopRetry stop n again, [])
  | .finishing, .finish => some (w.finishStopConvergence stop n, [])
  | _, _ => none

/-- What one step of a goroutine does, case by case. -/
inductive RunnerMove (env : Env) (w : Workload) (stop : Stop) (n : ℕ) :
    Runner → RunnerStep → Workload → List Effect → Prop
  | begin : RunnerMove env w stop n .starting .begin (w.beginStopAttempt stop n) []
  | persist : RunnerMove env w stop n .persisting .persist (w.persistOwnedStop stop n) []
  | put (id : Bytes) (stored : Bool) : RunnerMove env w stop n (.putting id) (.put stored)
      { w with stop := some (stop.moveRunner n (if stored then .committing id else .deferring)) } []
  | commit (id : Bytes) :
      RunnerMove env w stop n (.committing id) .commit (w.commitOwnedStop stop n id) []
  | defer : RunnerMove env w stop n .deferring .defer (w.deferOwnedStop stop n) []
  | read : RunnerMove env w stop n .reading .read (w.readStopResult stop n) []
  | invoke : RunnerMove env w stop n .invoking .invoke (w.invokeStop stop n) []
  | answer (result : StopResult) :
      RunnerMove env w stop n .calling (.answer result) (w.answerStop stop n result) []
  | mark : RunnerMove env w stop n .marking .mark
      { w with stop := some (stop.moveRunner n (.applying .ambiguous)) } []
  | apply (result : StopResult) : RunnerMove env w stop n (.applying result) .apply
      (w.applyStopAttempt stop n result).1 (w.applyStopAttempt stop n result).2
  | delete (id : Bytes) (result : StopResult) (deleted : Bool) :
      RunnerMove env w stop n (.deleting id result) (.delete deleted)
        { w with stop := some (stop.moveRunner n (.settling id result deleted)) } []
  | settle (id : Bytes) (result : StopResult) (deleted : Bool) :
      RunnerMove env w stop n (.settling id result deleted) .settle
        (w.settleStopAttempt env stop n id result deleted).1
        (w.settleStopAttempt env stop n id result deleted).2
  | retry (again : Bool) :
      RunnerMove env w stop n .waiting (.retry again) (w.waitStopRetry stop n again) []
  | finish : RunnerMove env w stop n .finishing .finish (w.finishStopConvergence stop n) []

theorem runnerStep_move {env : Env} {w w' : Workload} {stop : Stop} {n : ℕ} {runner : Runner}
    {next : RunnerStep} {effects : List Effect}
    (h : w.runnerStep env stop n runner next = some (w', effects)) :
    RunnerMove env w stop n runner next w' effects := by
  cases runner <;> cases next <;>
    simp only [runnerStep, Option.some.injEq, Prod.mk.injEq, reduceCtorEq] at h
  case starting.begin => obtain ⟨rfl, rfl⟩ := h; exact .begin
  case persisting.persist => obtain ⟨rfl, rfl⟩ := h; exact .persist
  case putting.put id stored => obtain ⟨rfl, rfl⟩ := h; exact .put id stored
  case committing.commit id => obtain ⟨rfl, rfl⟩ := h; exact .commit id
  case deferring.defer => obtain ⟨rfl, rfl⟩ := h; exact .defer
  case reading.read => obtain ⟨rfl, rfl⟩ := h; exact .read
  case invoking.invoke => obtain ⟨rfl, rfl⟩ := h; exact .invoke
  case calling.answer result => obtain ⟨rfl, rfl⟩ := h; exact .answer result
  case marking.mark => obtain ⟨rfl, rfl⟩ := h; exact .mark
  case applying.apply result => rw [Prod.ext_iff] at h; obtain ⟨rfl, rfl⟩ := h; exact .apply result
  case deleting.delete id result deleted =>
    obtain ⟨rfl, rfl⟩ := h
    exact .delete id result deleted
  case settling.settle id result deleted =>
    rw [Prod.ext_iff] at h
    obtain ⟨rfl, rfl⟩ := h
    exact .settle id result deleted
  case waiting.retry again => obtain ⟨rfl, rfl⟩ := h; exact .retry again
  case finishing.finish => obtain ⟨rfl, rfl⟩ := h; exact .finish

/-- One section, where it is enabled.  A readiness probe must have succeeded before an activation ends
ready, a lease is ended by a request that holds it, and the provider allocates growing keys. -/
def step (env : Env) (w : Workload) : Action → Option (Workload × List Effect)
  | .serveState binding => some (w.serveState env binding, [])
  | .finishWaiting wait claim => (w.leaveWait env claim wait).map (fun w => (w, []))
  | .endLease lease => if lease ∈ w.leases then some (w.endLease env lease, []) else none
  | .claimIdleStop binding epoch => some (w.claimIdleStop binding epoch, [])
  | .revokeIdleStop binding epoch => some (w.revokeIdleStop binding epoch, [])
  | .performStop binding epoch => some (w.performStop binding epoch)
  | .probe =>
    match w.activation with
    | none => none
    | some act => some ({ w with activation := some { act with probed := true } }, [])
  | .settleActivation ended =>
    match w.activation with
    | none => none
    | some act =>
      if ended = .ready ∧ !act.probed then none else some (w.settleActivation env act ended)
  | .runner n next =>
    match w.stop with
    | none => none
    | some stop =>
      match stop.runners[n]? with
      | none => none
      | some runner => w.runnerStep env stop n runner next
  | .prepareObservation key id running =>
    if w.lastKey < key then some (w.prepareObservation env key id running) else none
  | .retire => some (w.retire, [])
  | .reconcileRetired running => some (w.reconcileRetired env running)
  | .appendRetiredRef => some (w.appendRetiredRef env, [])
  | .resume armIdle => some (w.resume env armIdle, [])
  | .stopIdle => some (w.stopIdleLocked, [])

/-- What one section does, case by case. -/
inductive Move (env : Env) (w : Workload) : Action → Workload → List Effect → Prop
  | serveState (binding : ℕ) : Move env w (.serveState binding) (w.serveState env binding) []
  | finishWaiting {wait : WaitRef} {claim : Bool} {w' : Workload}
      (h : w.leaveWait env claim wait = some w') : Move env w (.finishWaiting wait claim) w' []
  | endLease {lease : ℕ} (h : lease ∈ w.leases) :
      Move env w (.endLease lease) (w.endLease env lease) []
  | claimIdleStop (binding epoch : ℕ) :
      Move env w (.claimIdleStop binding epoch) (w.claimIdleStop binding epoch) []
  | revokeIdleStop (binding epoch : ℕ) :
      Move env w (.revokeIdleStop binding epoch) (w.revokeIdleStop binding epoch) []
  | performStop (binding epoch : ℕ) : Move env w (.performStop binding epoch)
      (w.performStop binding epoch).1 (w.performStop binding epoch).2
  | probe {act : Activation} (h : w.activation = some act) :
      Move env w .probe { w with activation := some { act with probed := true } } []
  | settleActivation {act : Activation} {ended : Ended} (h : w.activation = some act)
      (hprobed : ended = .ready → act.probed = true) : Move env w (.settleActivation ended)
      (w.settleActivation env act ended).1 (w.settleActivation env act ended).2
  | runner {stop : Stop} {n : ℕ} {runner : Runner} {next : RunnerStep} {w' : Workload}
      {effects : List Effect} (hstop : w.stop = some stop) (hrunner : stop.runners[n]? = some runner)
      (h : RunnerMove env w stop n runner next w' effects) : Move env w (.runner n next) w' effects
  | prepareObservation {key : ℕ} (h : w.lastKey < key) (id : Bytes) (running : Bool) :
      Move env w (.prepareObservation key id running)
        (w.prepareObservation env key id running).1 (w.prepareObservation env key id running).2
  | retire : Move env w .retire w.retire []
  | reconcileRetired (running : Bool) : Move env w (.reconcileRetired running)
      (w.reconcileRetired env running).1 (w.reconcileRetired env running).2
  | appendRetiredRef : Move env w .appendRetiredRef (w.appendRetiredRef env) []
  | resume (armIdle : Bool) : Move env w (.resume armIdle) (w.resume env armIdle) []
  | stopIdle : Move env w .stopIdle w.stopIdleLocked []

theorem step_move {env : Env} {w w' : Workload} {a : Action} {effects : List Effect}
    (h : w.step env a = some (w', effects)) : Move env w a w' effects := by
  cases a with
  | serveState binding =>
    obtain ⟨rfl, rfl⟩ := Prod.mk.inj (Option.some.inj h)
    exact .serveState binding
  | finishWaiting wait claim =>
    obtain ⟨left, hleft, heq⟩ := Option.map_eq_some_iff.1 h
    obtain ⟨rfl, rfl⟩ := Prod.mk.inj heq
    exact .finishWaiting hleft
  | endLease lease =>
    obtain ⟨hlease, heq⟩ := Option.ite_none_right_eq_some.1 h
    obtain ⟨rfl, rfl⟩ := Prod.mk.inj (Option.some.inj heq)
    exact .endLease hlease
  | claimIdleStop binding epoch =>
    obtain ⟨rfl, rfl⟩ := Prod.mk.inj (Option.some.inj h)
    exact .claimIdleStop binding epoch
  | revokeIdleStop binding epoch =>
    obtain ⟨rfl, rfl⟩ := Prod.mk.inj (Option.some.inj h)
    exact .revokeIdleStop binding epoch
  | performStop binding epoch =>
    obtain ⟨rfl, rfl⟩ := Prod.ext_iff.1 (Option.some.inj h)
    exact .performStop binding epoch
  | probe =>
    simp only [step] at h
    split at h
    · cases h
    · rename_i act hact
      obtain ⟨rfl, rfl⟩ := Prod.mk.inj (Option.some.inj h)
      exact .probe hact
  | settleActivation ended =>
    simp only [step] at h
    split at h
    · cases h
    · rename_i act hact
      obtain ⟨hprobed, heq⟩ := Option.ite_none_left_eq_some.1 h
      obtain ⟨rfl, rfl⟩ := Prod.ext_iff.1 (Option.some.inj heq)
      exact .settleActivation hact (by simpa using hprobed)
  | runner n next =>
    simp only [step] at h
    split at h
    · cases h
    · rename_i stop hstop
      split at h
      · cases h
      · exact .runner hstop ‹_› (runnerStep_move h)
  | prepareObservation key id running =>
    obtain ⟨hkey, heq⟩ := Option.ite_none_right_eq_some.1 h
    obtain ⟨rfl, rfl⟩ := Prod.ext_iff.1 (Option.some.inj heq)
    exact .prepareObservation hkey id running
  | retire =>
    obtain ⟨rfl, rfl⟩ := Prod.mk.inj (Option.some.inj h)
    exact .retire
  | reconcileRetired running =>
    obtain ⟨rfl, rfl⟩ := Prod.ext_iff.1 (Option.some.inj h)
    exact .reconcileRetired running
  | appendRetiredRef =>
    obtain ⟨rfl, rfl⟩ := Prod.mk.inj (Option.some.inj h)
    exact .appendRetiredRef
  | resume armIdle =>
    obtain ⟨rfl, rfl⟩ := Prod.mk.inj (Option.some.inj h)
    exact .resume armIdle
  | stopIdle =>
    obtain ⟨rfl, rfl⟩ := Prod.mk.inj (Option.some.inj h)
    exact .stopIdle

end Workload

/-! ### What the small sections touch -/

namespace Workload

variable (w : Workload) (next : Phase)

theorem settleTo_frame :
    ∃ phase refused, w.settleTo next = { w with phase := phase, refused := refused } := by
  unfold settleTo transitionLocked
  split
  · exact ⟨next, w.refused, rfl⟩
  · exact ⟨w.phase, true, rfl⟩

theorem moveTo_frame :
    ∃ phase refused, w.moveTo next = { w with phase := phase, refused := refused } := by
  unfold moveTo toLocked
  split
  · exact ⟨w.phase, true, rfl⟩
  · exact w.settleTo_frame next

theorem armIdleLocked_frame (env : Env) (w : Workload) :
    ∃ epoch idle, w.armIdleLocked env = { w with idleEpoch := epoch, idle := idle } := by
  unfold armIdleLocked
  split
  · exact ⟨w.idleEpoch, w.idle, rfl⟩
  · exact ⟨w.idleEpoch + 1, true, rfl⟩

theorem stopIdleLocked_frame : ∃ phase refused epoch, w.stopIdleLocked =
    { w with phase := phase, refused := refused, idleEpoch := epoch, idle := false } := by
  unfold stopIdleLocked
  dsimp only
  split
  · obtain ⟨phase, refused, hframe⟩ := moveTo_frame
      { w with idleEpoch := w.idleEpoch + 1, idle := false } .ready
    exact ⟨phase, refused, w.idleEpoch + 1, hframe⟩
  · exact ⟨w.phase, w.refused, w.idleEpoch + 1, rfl⟩

@[simp] theorem stop_moveTo : (w.moveTo next).stop = w.stop := by
  obtain ⟨phase, refused, hframe⟩ := w.moveTo_frame next
  rw [hframe]

@[simp] theorem lastKey_moveTo : (w.moveTo next).lastKey = w.lastKey := by
  obtain ⟨phase, refused, hframe⟩ := w.moveTo_frame next
  rw [hframe]

@[simp] theorem lastKey_stopIdleLocked : w.stopIdleLocked.lastKey = w.lastKey := by
  obtain ⟨phase, refused, epoch, hframe⟩ := w.stopIdleLocked_frame
  rw [hframe]

@[simp] theorem lastKey_unretireLocked : w.unretireLocked.lastKey = w.lastKey := by
  unfold unretireLocked
  dsimp only
  split_ifs <;> simp

@[simp] theorem lastKey_supersedeBindingLocked : w.supersedeBindingLocked.lastKey = w.lastKey := by
  unfold supersedeBindingLocked
  split
  · split <;> simp
  · simp
  · simp
  · split <;> simp
  · split <;> simp
  · rfl
  · rfl

end Workload

/-- A registered workload begins dormant and unbound.  The successor of a detached owner inherits its
replacement history and backoff. -/
def Workload.registered (service : Bytes) (hadBinding : Bool) (failures failedUntil : ℕ) :
    Workload where
  service := service
  phase := if 0 < failures then .failed else .dormant
  hadBinding := hadBinding
  failures := failures
  failedUntil := failedUntil

/-- `restoreMutationRecords`, for one record. -/
def Workload.restored (service : Bytes) (kind : StopKind) (key : ℕ) (id : Bytes) : Workload where
  service := service
  phase := .stopUnknown
  binding := some ⟨key, id⟩
  hadBinding := true
  retired := true
  stop := some { kind := kind, binding := key, uncertain := true, persisted := true,
                 invoked := true, doubted := true }
  lastKey := key
  stops := 1

/-- The interleavings of one workload's sections. -/
def workloadMachine : Machine Workload (Env × Action) where
  start w := (∃ service hadBinding failures failedUntil,
      w = .registered service hadBinding failures failedUntil) ∨
    ∃ service kind key id, w = .restored service kind key id
  step w a := (w.step a.1 a.2).map Prod.fst

end Statute.Lifecycle
