import Mathlib.Data.Nat.Notation
import Mathlib.Tactic.Common
import Statute.Base.Machine

/-!
# The reconcile loop

The wakeup protocol of `dockerprovider.go`: `requestReconcile` callers, `trigger`, and one run's
`reconcileLoop` with `debounce`, `reconcileUntilPublished`, `beginReconcile`, `publishGeneration`
and `finishReconcile`.  Every section under `generationMu` and every channel operation is one action
of a machine, so its runs are the interleavings of the goroutines.

* `demand_kept`: a channel handed out and not yet closed keeps the loop busy, by a queued kick, by
  a kick received and not yet answered by a publication, by recorded demand, or by demand that
  `finishReconcile` has handed to the loop and that the loop is about to turn into a kick.
* `taken_demand_reachable`: the last case happens.
-/

namespace Statute.Provider

open Statute.Base

/-- Where the goroutine of `reconcileLoop` stands.  `kicked` tells a pass that began with a kick
from one of the refresh ticker. -/
inductive LoopState where
  /-- `start` has made the run current and has not published yet; the loop is not running. -/
  | starting
  /-- In the `select` of `reconcileLoop`. -/
  | idle
  /-- In `debounce`, behind the kick that began it. -/
  | debouncing
  /-- Before `beginReconcile`. -/
  | beginning (kicked : Bool)
  /-- Between `beginReconcile` and a publication: a `sync` runs, or the loop waits to retry. -/
  | syncing (kicked : Bool)
  /-- Before the deferred `finishReconcile`. -/
  | finishing
  /-- `finishReconcile` has returned demand, and the deferred function has not triggered yet. -/
  | retriggering
  /-- `reconcileLoop` has returned. -/
  | exited
deriving DecidableEq, Repr

/-- The state the protocol shares.  A channel is named by its place in the sequence of values of
`generationChanged`, so exactly the channel `generation` is open. -/
structure ReconcileState where
  loop : LoopState := .starting
  cancelled : Bool := false
  /-- The one-slot buffer of `kick`. -/
  kick : Bool := false
  generation : ℕ := 0
  reconciling : Bool := false
  reconcileDemanded : Bool := false
  /-- Callers of `requestReconcile` that saw no reconcile in flight and have not triggered yet, by
  the channel they read. -/
  triggering : List ℕ := []
  /-- The channels `requestReconcile` hands out. -/
  returned : List ℕ := []
deriving DecidableEq, Repr

/-- The atomic sections, by the goroutine that runs them. -/
inductive ReconcileAction where
  /-- A caller of `requestReconcile` in its critical section. -/
  | request
  /-- A caller that read this channel triggers and returns it. -/
  | requestTrigger (channel : ℕ)
  /-- `trigger` from `scheduleReconcile` or the event stream. -/
  | trigger
  /-- `start` publishes its synchronous generation and launches the loop. -/
  | startPublish
  /-- The loop receives a kick. -/
  | receive
  /-- The loop receives a refresh tick. -/
  | tick
  /-- `debounce` drains a kick. -/
  | drain
  /-- `debounce` returns. -/
  | debounced
  | beginReconcile
  /-- An attempt of `sync` fails, or its publication is refused. -/
  | attemptFails
  | publishGeneration
  /-- The retry loop sees the cancelled context. -/
  | giveUp
  | finishReconcile
  /-- The deferred function triggers, unless the run is cancelled. -/
  | retrigger
  /-- `reconcileLoop` sees the cancelled context. -/
  | exit
  | cancel
deriving DecidableEq, Repr

/-- `publishGeneration`, on success: the open channel is closed and a new one takes its place. -/
def publishGeneration (s : ReconcileState) : ReconcileState :=
  { s with generation := s.generation + 1, reconcileDemanded := false }

/-- `requestReconcile` under `generationMu`.  A channel counts as handed out as soon as its demand is
recorded. -/
def requestReconcile (s : ReconcileState) : ReconcileState :=
  if s.reconciling then
    { s with reconcileDemanded := true, returned := s.generation :: s.returned }
  else { s with triggering := s.generation :: s.triggering }

def beginReconcile (s : ReconcileState) (kicked : Bool) : ReconcileState :=
  { s with loop := .syncing kicked, reconciling := true, reconcileDemanded := false }

/-- `finishReconcile`, with the branch of its caller. -/
def finishReconcile (s : ReconcileState) : ReconcileState :=
  { s with
    loop := if s.reconcileDemanded then .retriggering else .idle
    reconciling := false
    reconcileDemanded := false }

/-- One action, where it is enabled. -/
def reconcileStep (s : ReconcileState) : ReconcileAction → Option ReconcileState
  | .request => some (requestReconcile s)
  | .requestTrigger c =>
    if c ∈ s.triggering then
      some { s with kick := true, triggering := s.triggering.erase c, returned := c :: s.returned }
    else none
  | .trigger => some { s with kick := true }
  | .startPublish =>
    if s.loop = .starting then some { publishGeneration s with loop := .idle } else none
  | .receive =>
    if s.loop = .idle ∧ s.kick then some { s with loop := .debouncing, kick := false } else none
  | .tick => if s.loop = .idle then some { s with loop := .beginning false } else none
  | .drain => if s.loop = .debouncing ∧ s.kick then some { s with kick := false } else none
  | .debounced =>
    if s.loop = .debouncing then some { s with loop := .beginning true } else none
  | .beginReconcile =>
    match s.loop with
    | .beginning kicked => some (beginReconcile s kicked)
    | _ => none
  | .attemptFails =>
    match s.loop with
    | .syncing _ => some s
    | _ => none
  | .publishGeneration =>
    match s.loop with
    | .syncing _ => some { publishGeneration s with loop := .finishing }
    | _ => none
  | .giveUp =>
    match s.loop with
    | .syncing _ => if s.cancelled then some { s with loop := .finishing } else none
    | _ => none
  | .finishReconcile => if s.loop = .finishing then some (finishReconcile s) else none
  | .retrigger =>
    if s.loop = .retriggering then
      some { s with loop := .idle, kick := s.kick || !s.cancelled }
    else none
  | .exit => if s.loop = .idle ∧ s.cancelled then some { s with loop := .exited } else none
  | .cancel => some { s with cancelled := true }

/-- A run begins with an empty kick channel and no reconcile in flight; earlier runs may have
published. -/
def reconcileMachine : Machine ReconcileState ReconcileAction where
  start s := ∃ generation, s = { generation := generation }
  step := reconcileStep

/-! ### The invariant -/

/-- The loop has received a kick that no publication has answered yet. -/
def LoopState.answering : LoopState → Bool
  | .debouncing => true
  | .beginning kicked => kicked
  | .syncing kicked => kicked
  | _ => false

/-- `reconciling` is set between `beginReconcile` and `finishReconcile`. -/
def LoopState.inFlight : LoopState → Bool
  | .syncing _ => true
  | .finishing => true
  | _ => false

/-- Pending work, in the words of the source: a queued kick, a kick being answered, or recorded
demand of a reconcile in flight. -/
def ReconcileState.Pending (s : ReconcileState) : Prop :=
  s.kick = true ∨ s.loop.answering = true ∨ (s.reconciling = true ∧ s.reconcileDemanded = true)

/-- A channel that was handed out is still open. -/
def ReconcileState.Waited (s : ReconcileState) : Prop := s.generation ∈ s.returned

/-- What every step of the protocol keeps. -/
structure ReconcileInv (s : ReconcileState) : Prop where
  inFlight : s.reconciling = s.loop.inFlight
  demanded : s.reconcileDemanded = true → s.reconciling = true
  returned_le : ∀ c ∈ s.returned, c ≤ s.generation
  triggering_le : ∀ c ∈ s.triggering, c ≤ s.generation
  waited : s.cancelled = false → s.Waited → s.Pending ∨ s.loop = .retriggering

namespace ReconcileInv

variable {s : ReconcileState}

/-- A publication closes every channel handed out so far. -/
theorem publish (h : ReconcileInv s) {loop : LoopState} (hloop : loop.inFlight = s.loop.inFlight) :
    ReconcileInv { publishGeneration s with loop := loop } where
  inFlight := h.inFlight.trans hloop.symm
  demanded := fun hd => absurd hd (by simp [publishGeneration])
  returned_le := fun c hc => Nat.le_trans (h.returned_le c hc) (Nat.le_succ _)
  triggering_le := fun c hc => Nat.le_trans (h.triggering_le c hc) (Nat.le_succ _)
  waited := fun _ hw => absurd (h.returned_le _ hw) (Nat.not_succ_le_self _)

/-- A step of the loop alone: the kick is kept or being answered. -/
theorem move (h : ReconcileInv s) {loop : LoopState} {kick : Bool}
    (hloop : loop.inFlight = s.loop.inFlight)
    (hkept : s.cancelled = false → s.kick = true ∨ s.loop.answering = true ∨
      s.loop = .retriggering → kick = true ∨ loop.answering = true ∨ loop = .retriggering) :
    ReconcileInv { s with loop := loop, kick := kick } where
  inFlight := h.inFlight.trans hloop.symm
  demanded := h.demanded
  returned_le := h.returned_le
  triggering_le := h.triggering_le
  waited := fun hc hw => by
    rcases h.waited hc hw with (hk | hl | hd) | hr
    · exact (hkept hc (Or.inl hk)).elim (fun h => Or.inl (Or.inl h))
        (fun h => h.elim (fun h => Or.inl (Or.inr (Or.inl h))) Or.inr)
    · exact (hkept hc (Or.inr (Or.inl hl))).elim (fun h => Or.inl (Or.inl h))
        (fun h => h.elim (fun h => Or.inl (Or.inr (Or.inl h))) Or.inr)
    · exact Or.inl (Or.inr (Or.inr hd))
    · exact (hkept hc (Or.inr (Or.inr hr))).elim (fun h => Or.inl (Or.inl h))
        (fun h => h.elim (fun h => Or.inl (Or.inr (Or.inl h))) Or.inr)

theorem request (h : ReconcileInv s) : ReconcileInv (requestReconcile s) := by
  unfold requestReconcile
  split
  · rename_i hr
    refine ⟨h.inFlight, fun _ => hr, fun c hc => ?_, h.triggering_le, fun _ _ => ?_⟩
    · rcases List.mem_cons.1 hc with rfl | hc
      · exact Nat.le_refl _
      · exact h.returned_le c hc
    · exact Or.inl (Or.inr (Or.inr ⟨hr, rfl⟩))
  · refine ⟨h.inFlight, h.demanded, h.returned_le, fun c hc => ?_, h.waited⟩
    rcases List.mem_cons.1 hc with rfl | hc
    · exact Nat.le_refl _
    · exact h.triggering_le c hc

theorem requestTrigger (h : ReconcileInv s) {c : ℕ} (hc : c ∈ s.triggering) :
    ReconcileInv { s with
      kick := true, triggering := s.triggering.erase c, returned := c :: s.returned } where
  inFlight := h.inFlight
  demanded := h.demanded
  returned_le := fun d hd => (List.mem_cons.1 hd).elim (fun he => he ▸ h.triggering_le c hc)
    (h.returned_le d)
  triggering_le := fun d hd => h.triggering_le d (List.mem_of_mem_erase hd)
  waited := fun _ _ => Or.inl (Or.inl rfl)

/-- `beginReconcile` clears a flag that is down: demand is recorded only while a reconcile is in
flight. -/
theorem begin (h : ReconcileInv s) {kicked : Bool} (hloop : s.loop = .beginning kicked) :
    ReconcileInv (beginReconcile s kicked) where
  inFlight := rfl
  demanded := fun _ => rfl
  returned_le := h.returned_le
  triggering_le := h.triggering_le
  waited := fun hc hw => by
    have hflight : s.reconciling = false := by rw [h.inFlight, hloop]; rfl
    rcases h.waited hc hw with (hk | hl | hd) | hr
    · exact Or.inl (Or.inl hk)
    · rw [hloop] at hl
      exact Or.inl (Or.inr (Or.inl hl))
    · rw [hflight] at hd
      exact absurd hd.1 (by simp)
    · rw [hloop] at hr
      cases hr

/-- `finishReconcile` hands recorded demand to the loop. -/
theorem finish (h : ReconcileInv s) (hloop : s.loop = .finishing) :
    ReconcileInv (finishReconcile s) where
  inFlight := by
    simp only [finishReconcile]
    split <;> rfl
  demanded := fun hd => absurd hd (by simp [finishReconcile])
  returned_le := h.returned_le
  triggering_le := h.triggering_le
  waited := fun hc hw => by
    rcases h.waited hc hw with (hk | hl | hd) | hr
    · exact Or.inl (Or.inl hk)
    · rw [hloop] at hl
      exact absurd hl (by simp [LoopState.answering])
    · exact Or.inr (if_pos hd.2)
    · rw [hloop] at hr
      cases hr

/-- **Every action keeps the invariant.** -/
theorem step (h : ReconcileInv s) {a : ReconcileAction} {t : ReconcileState}
    (hstep : reconcileStep s a = some t) : ReconcileInv t := by
  cases a with
  | request => exact Option.some.inj hstep ▸ h.request
  | requestTrigger c =>
    simp only [reconcileStep, Option.ite_none_right_eq_some] at hstep
    exact Option.some.inj hstep.2 ▸ h.requestTrigger hstep.1
  | trigger => exact Option.some.inj hstep ▸ h.move rfl fun _ _ => Or.inl rfl
  | startPublish =>
    simp only [reconcileStep, Option.ite_none_right_eq_some] at hstep
    exact Option.some.inj hstep.2 ▸ h.publish (by rw [hstep.1]; rfl)
  | receive =>
    simp only [reconcileStep, Option.ite_none_right_eq_some] at hstep
    exact Option.some.inj hstep.2 ▸ h.move (by rw [hstep.1.1]; rfl) fun _ _ => Or.inr (Or.inl rfl)
  | tick =>
    simp only [reconcileStep, Option.ite_none_right_eq_some] at hstep
    refine Option.some.inj hstep.2 ▸ h.move (by rw [hstep.1]; rfl) fun _ hk => ?_
    rw [hstep.1] at hk
    simpa [LoopState.answering] using hk
  | drain =>
    simp only [reconcileStep, Option.ite_none_right_eq_some] at hstep
    refine Option.some.inj hstep.2 ▸ h.move rfl fun _ _ => Or.inr (Or.inl ?_)
    rw [hstep.1.1]
    rfl
  | debounced =>
    simp only [reconcileStep, Option.ite_none_right_eq_some] at hstep
    exact Option.some.inj hstep.2 ▸ h.move (by rw [hstep.1]; rfl) fun _ _ => Or.inr (Or.inl rfl)
  | beginReconcile =>
    simp only [reconcileStep] at hstep
    split at hstep
    · rename_i kicked hloop
      exact Option.some.inj hstep ▸ h.begin hloop
    · cases hstep
  | attemptFails =>
    simp only [reconcileStep] at hstep
    split at hstep
    · exact Option.some.inj hstep ▸ h
    · cases hstep
  | publishGeneration =>
    simp only [reconcileStep] at hstep
    split at hstep
    · rename_i kicked hloop
      exact Option.some.inj hstep ▸ h.publish (by rw [hloop]; rfl)
    · cases hstep
  | giveUp =>
    simp only [reconcileStep] at hstep
    split at hstep
    · rename_i kicked hloop
      rw [Option.ite_none_right_eq_some] at hstep
      refine Option.some.inj hstep.2 ▸ h.move (by rw [hloop]; rfl) fun hc => ?_
      rw [hstep.1] at hc
      cases hc
    · cases hstep
  | finishReconcile =>
    simp only [reconcileStep, Option.ite_none_right_eq_some] at hstep
    exact Option.some.inj hstep.2 ▸ h.finish hstep.1
  | retrigger =>
    simp only [reconcileStep, Option.ite_none_right_eq_some] at hstep
    refine Option.some.inj hstep.2 ▸ h.move (by rw [hstep.1]; rfl) fun hc _ => Or.inl ?_
    rw [hc]
    simp
  | exit =>
    simp only [reconcileStep, Option.ite_none_right_eq_some] at hstep
    refine Option.some.inj hstep.2 ▸ h.move (by rw [hstep.1.1]; rfl) fun hc => ?_
    rw [hstep.1.2] at hc
    cases hc
  | cancel =>
    refine Option.some.inj hstep ▸ ⟨h.inFlight, h.demanded, h.returned_le, h.triggering_le, ?_⟩
    exact fun hc => absurd hc (by simp)

end ReconcileInv

/-- The invariant holds on every run. -/
theorem reconcileInv_reachable {s : ReconcileState} (hs : reconcileMachine.Reachable s) :
    ReconcileInv s := by
  refine hs.invariant ?_ fun s a t _ h hstep => h.step hstep
  rintro s ⟨generation, rfl⟩
  exact ⟨rfl, by simp, by simp, by simp, fun _ hw => absurd hw (by simp [ReconcileState.Waited])⟩

/-! ### No lost demand -/

/-- **No demand is lost.**  On every interleaving, while a channel handed out by `requestReconcile` is
open and the run is not cancelled, a kick is queued, or the loop is between receiving a kick and the
next publication, or demand is recorded while reconciling, or the loop has taken the demand from
`finishReconcile` and is about to trigger.  In particular an idle loop has a kick to receive. -/
theorem demand_kept (s : ReconcileState) (hs : reconcileMachine.Reachable s)
    (hrun : s.cancelled = false) (hwait : s.Waited) :
    (s.Pending ∨ s.loop = .retriggering) ∧ (s.loop = .idle → s.kick = true) := by
  have h := reconcileInv_reachable hs
  refine ⟨h.waited hrun hwait, fun hidle => ?_⟩
  have hflight : s.reconciling = false := by rw [h.inFlight, hidle]; rfl
  rcases h.waited hrun hwait with (hk | hl | hd) | hr
  · exact hk
  · rw [hidle] at hl
    exact absurd hl (by simp [LoopState.answering])
  · rw [hflight] at hd
    exact absurd hd.1 (by simp)
  · rw [hidle] at hr
    exact absurd hr (by simp)

/-- A caller that arrives between a publication and `finishReconcile`, up to the moment its demand
has been taken. -/
def takenDemand : List ReconcileAction :=
  [.startPublish, .trigger, .receive, .debounced, .beginReconcile, .publishGeneration, .request,
    .finishReconcile]

/-- The state `takenDemand` leads to. -/
def takenState : ReconcileState :=
  { loop := .retriggering, generation := 2, returned := [2] }

theorem takenState_reachable : reconcileMachine.Reachable takenState := by
  have hstart : reconcileMachine.start {} := ⟨0, rfl⟩
  have hrun : reconcileMachine.run {} takenDemand = some takenState := by decide
  exact (Machine.Reachable.start hstart).run hrun

/-- **The demand passes through the loop's hands.**  A run reaches a state in which a channel handed
out is open, and no kick is queued, no kick is being answered, and no demand is recorded. -/
theorem taken_demand_reachable :
    reconcileMachine.Reachable takenState ∧ takenState.cancelled = false ∧ takenState.Waited ∧
      ¬ takenState.Pending := by
  refine ⟨takenState_reachable, rfl, ?_, ?_⟩
  · simp [ReconcileState.Waited, takenState]
  · simp [ReconcileState.Pending, takenState, LoopState.answering]

/-- The theorem at the state of `taken_demand_reachable`. -/
theorem demand_kept_takenState :
    takenState.Waited ∧ (takenState.Pending ∨ takenState.loop = .retriggering) := by
  have hwait : takenState.Waited := by simp [ReconcileState.Waited, takenState]
  exact ⟨hwait, (demand_kept takenState takenState_reachable rfl hwait).1⟩

end Statute.Provider
