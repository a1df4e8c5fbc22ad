import Statute.Lifecycle.Coherence

/-!
# Stale work

A goroutine keeps what it was given when it began: the key of a binding, a pointer to an activation
or a stop, the owner it captured around registry I/O.  By the time it comes back to its workload the
binding may be another one.  `Held` lists the operations that come back with such an identity, and
`perform` is what each of them does, with the tests the source makes before it acts.

A pointer is given by what it points to.  Equal pointers have equal contents, so an operation of the
model acts whenever the one of the source does.

* `perform_current`: with a current pointer the operations are the sections of the workload machine.
* `stale_work_frame`: with an identity of another binding none of them touches the workload.
-/

namespace Statute.Lifecycle

open Statute.Base

/-- `workloadStopOwnership`. -/
structure Ownership where
  stop : Stop
  binding : Binding
deriving DecidableEq, Repr

/-- The operations that carry an identity from the time they began. -/
inductive Held where
  /-- `end`, with a lease. -/
  | endLease (lease : ℕ)
  /-- `finishWaiting`, on a wait. -/
  | finishWaiting (wait : Wait) (claim : Bool)
  | settleActivation (act : Activation) (ended : Workload.Ended)
  | claimIdleStop (binding epoch : ℕ)
  | revokeIdleStop (binding epoch : ℕ)
  | performStop (binding epoch : ℕ)
  | beginStopAttempt (stop : Stop)
  /-- The first section of `persistOwnedStop`. -/
  | persistOwnedStop (stop : Stop)
  /-- Its second section, with the owner the first one captured. -/
  | commitOwnedStop (owner : Ownership)
  | deferOwnedStop (stop : Stop)
  | markOwnedStopUncertain (stop : Stop)
  /-- The first section of `applyStopAttempt`. -/
  | applyStopAttempt (stop : Stop) (result : StopResult)
  /-- Its second section, with the owner the first one captured. -/
  | settleStopAttempt (owner : Ownership) (result : StopResult) (deleted : Bool)
deriving DecidableEq, Repr

namespace Workload

def stopOwnershipLocked (w : Workload) (stop : Stop) : Option Ownership :=
  match w.binding with
  | none => none
  | some b => if w.stop = some stop ∧ b.key = stop.binding then some ⟨stop, b⟩ else none

/-- `currentLocked`. -/
def current (w : Workload) (owner : Ownership) : Bool :=
  w.stop = some owner.stop && w.binding = some owner.binding &&
    owner.stop.binding == owner.binding.key

/-- The container whose record `markOwnedStopUncertain` marks, if it comes to that. -/
def marks (w : Workload) (stop : Stop) : Option Bytes :=
  if w.stop ≠ some stop ∨ w.binding.isNone ∨ w.key ≠ stop.binding then none else some w.ownedID

/-- What an operation does to the workload.  The sections of a goroutine of the stop are those of its
only one. -/
def perform (env : Env) (w : Workload) : Held → Workload
  | .endLease lease => w.endLease env lease
  | .finishWaiting wait claim => (w.finishWaiting env wait claim).1
  | .settleActivation act ended =>
    if w.activation ≠ some act then w else (w.settleActivation env act ended).1
  | .claimIdleStop binding epoch => w.claimIdleStop binding epoch
  | .revokeIdleStop binding epoch => w.revokeIdleStop binding epoch
  | .performStop binding epoch => (w.performStop binding epoch).1
  | .beginStopAttempt stop =>
    if w.stop ≠ some stop ∨ w.binding.isNone ∨ w.key ≠ stop.binding then w
    else w.beginStopAttempt stop 0
  | .persistOwnedStop stop =>
    match w.stopOwnershipLocked stop with
    | none => w
    | some owner => w.persistOwnedStop owner.stop 0
  | .commitOwnedStop owner =>
    if !w.current owner then w else w.commitOwnedStop owner.stop 0 owner.binding.containerID
  | .deferOwnedStop stop =>
    if w.stop ≠ some stop ∨ w.binding.isNone ∨ w.key ≠ stop.binding then w
    else w.deferOwnedStop stop 0
  -- The mark goes to the registry; the workload itself is only read.
  | .markOwnedStopUncertain _ => w
  | .applyStopAttempt stop result =>
    match w.stopOwnershipLocked stop with
    | none => w
    | some owner => (w.applyStopAttempt owner.stop 0 result).1
  | .settleStopAttempt owner result deleted =>
    if !w.current owner then w
    else (w.settleStopAttempt env owner.stop 0 owner.binding.containerID result deleted).1

end Workload

/-! ### Current pointers -/

/-- The operation a goroutine of the stop performs next, where its point has one of its own. -/
def Held.ofRunner (stop : Stop) (b : Binding) : Runner → Option Held
  | .starting => some (.beginStopAttempt stop)
  | .persisting => some (.persistOwnedStop stop)
  | .committing _ => some (.commitOwnedStop ⟨stop, b⟩)
  | .deferring => some (.deferOwnedStop stop)
  | .applying result => some (.applyStopAttempt stop result)
  | .settling _ result deleted => some (.settleStopAttempt ⟨stop, b⟩ result deleted)
  | _ => none

namespace Workload

theorem key_of_binding {w : Workload} {b : Binding} (hb : w.binding = some b) : w.key = b.key := by
  rw [key, hb]

/-- The goroutine of a coherent workload's stop holds its owner. -/
theorem Coherent.ownership {w : Workload} {stop : Stop} {b : Binding} (h : w.Coherent)
    (hstop : w.stop = some stop) (hb : w.binding = some b) :
    w.stopOwnershipLocked stop = some ⟨stop, b⟩ ∧ w.current ⟨stop, b⟩ = true ∧
      ¬ (w.stop ≠ some stop ∨ w.binding.isNone ∨ w.key ≠ stop.binding) := by
  have hkey := (h.stop stop hstop).binding
  rw [key_of_binding hb] at hkey
  refine ⟨?_, ?_, ?_⟩
  · simp [stopOwnershipLocked, hb, hstop, hkey]
  · simp [current, hb, hstop, hkey]
  · simp [hb, hstop, key_of_binding hb, hkey]

/-- **Current pointers.**  What the goroutine of the current stop does in the workload machine is the
operation it performs with its own pointer. -/
theorem perform_current {w w' : Workload} {env : Env} {stop : Stop} {b : Binding} {runner : Runner}
    {next : RunnerStep} {effects : List Effect} {op : Held} (h : w.Coherent)
    (hstop : w.stop = some stop) (hb : w.binding = some b) (hn : stop.runners[0]? = some runner)
    (hop : Held.ofRunner stop b runner = some op)
    (hmove : RunnerMove env w stop 0 runner next w' effects) : w.perform env op = w' := by
  obtain ⟨howner, hcurrent, hpointer⟩ := h.ownership hstop hb
  have hid : ∀ carried ∈ runner.container, carried = b.containerID := by
    intro carried hcarried
    rw [(h.stop stop hstop).container runner (List.mem_of_getElem? hn) carried hcarried, ownedID, hb]
  cases hmove with
  | begin | defer =>
    obtain rfl := Option.some.inj hop
    exact if_neg hpointer
  | persist | apply =>
    obtain rfl := Option.some.inj hop
    simp only [perform, howner]
  | commit id | settle id =>
    obtain rfl := Option.some.inj hop
    rw [hid id rfl]
    simp [perform, hcurrent]
  | _ => exact absurd hop (by simp [Held.ofRunner])

end Workload

/-! ### Identities of another binding -/

/-- The binding an operation carries. -/
def Held.binding : Held → ℕ
  | .endLease lease => lease
  | .finishWaiting wait _ => wait.lease
  | .settleActivation act _ => act.binding
  | .claimIdleStop binding _ | .revokeIdleStop binding _ | .performStop binding _ => binding
  | .beginStopAttempt stop | .persistOwnedStop stop | .deferOwnedStop stop
  | .markOwnedStopUncertain stop | .applyStopAttempt stop _ => stop.binding
  | .commitOwnedStop owner | .settleStopAttempt owner _ _ => owner.binding.key

/-- The epoch of the idle timer an operation carries. -/
def Held.epoch : Held → Option ℕ
  | .claimIdleStop _ epoch | .revokeIdleStop _ epoch | .performStop _ epoch => some epoch
  | _ => none

/-- The operation began under another binding, or under another epoch of the idle timer. -/
def Held.Stale (op : Held) (w : Workload) : Prop :=
  (∀ b, w.binding = some b → b.key ≠ op.binding) ∨ ∃ epoch ∈ op.epoch, epoch ≠ w.idleEpoch

namespace Workload

/-- The activation in progress works for the current binding, as in every coherent workload. -/
def ActivationBound (w : Workload) : Prop :=
  ∀ act, w.activation = some act → ∃ b, w.binding = some b ∧ act.binding = b.key

variable {w : Workload}

theorem Coherent.activationBound (h : w.Coherent) : w.ActivationBound := by
  intro act hact
  have hphase := h.activation_phase hact
  obtain ⟨b, hb⟩ := Option.isSome_iff_exists.1 (h.bound (by simp [hphase]) (by simp [hphase]))
  exact ⟨b, hb, (h.activation act hact).trans (key_of_binding hb)⟩

/-- What belongs to the current binding is as it was. -/
structure Untouched (w w' : Workload) : Prop where
  binding : w'.binding = w.binding
  phase : w'.phase = w.phase
  stop : w'.stop = w.stop
  activation : w'.activation = w.activation
  idle : w'.idle = w.idle
  idleEpoch : w'.idleEpoch = w.idleEpoch
  failures : w'.failures = w.failures
  failedUntil : w'.failedUntil = w.failedUntil
  failureStopped : w'.failureStopped = w.failureStopped
  active : ∀ b, w.binding = some b → w'.active b.key = w.active b.key

theorem Untouched.refl (w : Workload) : Untouched w w :=
  ⟨rfl, rfl, rfl, rfl, rfl, rfl, rfl, rfl, rfl, fun _ _ => rfl⟩

/-- The counter of another binding changes, and who holds its leases. -/
theorem untouched_addActive {key : ℕ} (hkey : ∀ b, w.binding = some b → b.key ≠ key) (n : ℤ)
    (leases : List ℕ) : Untouched w { w.addActive key n with leases := leases } :=
  ⟨rfl, rfl, rfl, rfl, rfl, rfl, rfl, rfl, rfl,
    fun b hb => Function.update_of_ne (hkey b hb) _ _⟩

/-- A binding of another key fails every key test. -/
theorem stale_key {key : ℕ} (hkey : ∀ b, w.binding = some b → b.key ≠ key) :
    w.binding = none ∨ w.key ≠ key := by
  cases hb : w.binding with
  | none => exact Or.inl rfl
  | some b => exact Or.inr (key_of_binding hb ▸ hkey b hb)

theorem endLease_untouched {lease : ℕ} (env : Env)
    (hkey : ∀ b, w.binding = some b → b.key ≠ lease) : Untouched w (w.endLease env lease) := by
  have hother : (w.binding.isNone || w.key != lease) = true := by
    rcases stale_key hkey with hnone | hne
    · simp [hnone]
    · simp [hne]
  have hreturn : w.endLease env lease =
      { w.addActive lease (-1) with leases := w.leases.erase lease } := by
    rw [endLease]
    exact if_pos hother
  rw [hreturn]
  exact untouched_addActive hkey _ _

theorem finishWaiting_untouched {wait : Wait} (env : Env) (claim : Bool)
    (hkey : ∀ b, w.binding = some b → b.key ≠ wait.lease) :
    Untouched w (w.finishWaiting env wait claim).1 := by
  have hother : (w.binding.isNone || w.key != wait.lease) = true := by
    rcases stale_key hkey with hnone | hne
    · simp [hnone]
    · simp [hne]
  have hreturns : (wait.superseded || wait.failed || !claim || w.binding.isNone ||
      w.key != wait.lease) = true := by
    rw [Bool.or_assoc, hother, Bool.or_true]
  have hidle : ((w.addActive wait.lease (-1)).binding.isSome &&
      (w.addActive wait.lease (-1)).key == wait.lease) = false := by
    rcases stale_key hkey with hnone | hne
    · simp [addActive, hnone]
    · have hsame : (w.addActive wait.lease (-1)).key = w.key := rfl
      simp [hsame, hne]
  unfold finishWaiting
  dsimp only
  by_cases hreserved : wait.reserved = 0
  · rw [if_pos hreserved]
    exact .refl w
  · rw [if_neg hreserved, if_pos hreturns, hidle]
    exact untouched_addActive hkey (-1) w.leases

end Workload

/-- An operation without an epoch is stale by its binding. -/
theorem Held.Stale.key {op : Held} {w : Workload} (h : op.Stale w) (hepoch : op.epoch = none) :
    ∀ b, w.binding = some b → b.key ≠ op.binding := by
  rcases h with hkey | ⟨epoch, hsome, -⟩
  · exact hkey
  · rw [hepoch] at hsome
    cases hsome

/-- A stale operation of the idle timer fails one of its tests. -/
theorem Held.Stale.idle {op : Held} {w : Workload} {epoch : ℕ} (h : op.Stale w)
    (hepoch : op.epoch = some epoch) :
    w.binding = none ∨ w.key ≠ op.binding ∨ w.idleEpoch ≠ epoch := by
  rcases h with hkey | ⟨old, hold, hne⟩
  · rcases Workload.stale_key hkey with hnone | hother
    · exact Or.inl hnone
    · exact Or.inr (Or.inl hother)
  · rw [hepoch] at hold
    obtain rfl := Option.some.inj hold
    exact Or.inr (Or.inr (Ne.symm hne))

namespace Workload

/-- **Stale work.**  Whatever comes back to a workload with the key, the pointer or the owner of
another binding, or with an old epoch of the idle timer, changes neither the phase, the stop, the
activation, the idle timer and its epoch, the failure count and window, nor the activity of the
current binding; and it marks no record. -/
theorem stale_work_frame (env : Env) (w : Workload) (hw : w.ActivationBound) (op : Held)
    (hstale : op.Stale w) :
    Untouched w (w.perform env op) ∧
      ∀ stop, op = .markOwnedStopUncertain stop → w.marks stop = none := by
  have hpointer : ∀ {stop : Stop}, (∀ b, w.binding = some b → b.key ≠ stop.binding) →
      (w.stop ≠ some stop ∨ w.binding.isNone ∨ w.key ≠ stop.binding) := by
    intro stop hkey
    rcases stale_key hkey with hnone | hne
    · simp [hnone]
    · exact Or.inr (Or.inr hne)
  have howner : ∀ {stop : Stop}, (∀ b, w.binding = some b → b.key ≠ stop.binding) →
      w.stopOwnershipLocked stop = none := by
    intro stop hkey
    unfold stopOwnershipLocked
    split
    · rfl
    · rename_i b hb
      exact if_neg fun h => hkey b hb h.2
  have hcurrent : ∀ {owner : Ownership}, (∀ b, w.binding = some b → b.key ≠ owner.binding.key) →
      w.current owner = false := by
    intro owner hkey
    have hne : w.binding ≠ some owner.binding := fun hb => hkey _ hb rfl
    simp [current, hne]
  refine ⟨?_, ?_⟩
  · cases op with
    | endLease lease =>
      have hkey := hstale.key rfl
      exact endLease_untouched env hkey
    | finishWaiting wait claim =>
      have hkey := hstale.key rfl
      exact finishWaiting_untouched env claim hkey
    | settleActivation act ended =>
      have hkey := hstale.key rfl
      have hother : w.activation ≠ some act := by
        intro hact
        obtain ⟨b, hb, hbinding⟩ := hw act hact
        exact hkey b hb hbinding.symm
      rw [perform, if_pos hother]
      exact .refl w
    | claimIdleStop binding epoch =>
      have hskip : w.claimIdleStop binding epoch = w := by
        refine if_pos ?_
        rcases hstale.idle rfl with hnone | hkey | hepoch
        · simp [hnone]
        · simp [show w.key ≠ binding from hkey]
        · simp [hepoch]
      rw [perform, hskip]
      exact .refl w
    | revokeIdleStop binding epoch =>
      have hskip : w.revokeIdleStop binding epoch = w := by
        refine if_neg ?_
        rcases hstale.idle rfl with hnone | hkey | hepoch
        · simp [hnone]
        · simp [show w.key ≠ binding from hkey]
        · simp [hepoch]
      rw [perform, hskip]
      exact .refl w
    | performStop binding epoch =>
      have hskip : w.performStop binding epoch = (w, []) := by
        refine if_pos ?_
        rcases hstale.idle rfl with hnone | hkey | hepoch
        · simp [hnone]
        · simp [show w.key ≠ binding from hkey]
        · simp [hepoch]
      rw [perform, hskip]
      exact .refl w
    | beginStopAttempt stop =>
      have hkey := hstale.key rfl
      rw [perform, if_pos (hpointer hkey)]
      exact .refl w
    | persistOwnedStop stop =>
      have hkey := hstale.key rfl
      simp only [perform, howner hkey]
      exact .refl w
    | commitOwnedStop owner =>
      have hkey := hstale.key rfl
      rw [perform, hcurrent hkey]
      exact .refl w
    | deferOwnedStop stop =>
      have hkey := hstale.key rfl
      rw [perform, if_pos (hpointer hkey)]
      exact .refl w
    | markOwnedStopUncertain stop => exact .refl w
    | applyStopAttempt stop result =>
      have hkey := hstale.key rfl
      simp only [perform, howner hkey]
      exact .refl w
    | settleStopAttempt owner result deleted =>
      have hkey := hstale.key rfl
      rw [perform, hcurrent hkey]
      exact .refl w
  · rintro stop rfl
    exact if_pos (hpointer (hstale.key rfl))

end Workload

/-- A container that serves a request is replaced. -/
def replacedRun : List (Env × Action) :=
  [(running, .prepareObservation 1 (lit "c1") true), (running, .probe),
    (running, .settleActivation .ready), (running, .serveState 1),
    (running, .prepareObservation 2 (lit "c2") true)]

/-- The request's lease ends after the replacement. -/
theorem stale_work_frame_replacedRun : ∃ w, workloadMachine.Reachable w ∧ w.leases = [1] ∧
    w.key = 2 ∧ Workload.Untouched w (w.perform running (.endLease 1)) := by
  have hstart : workloadMachine.Reachable (.registered (lit "web") false 0 0) :=
    .start (Or.inl ⟨_, _, _, _, rfl⟩)
  have hreach := hstart.run (show workloadMachine.run _ replacedRun = some _ from rfl)
  refine ⟨_, hreach, rfl, rfl, ?_⟩
  refine (Workload.stale_work_frame running _ (coherent_reachable hreach).activationBound
    (.endLease 1) (Or.inl ?_)).1
  rintro b hb
  obtain rfl := Option.some.inj hb
  simp [Held.binding]

end Statute.Lifecycle
