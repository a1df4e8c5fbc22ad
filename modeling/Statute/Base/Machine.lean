import Mathlib.Data.Option.Basic

/-!
# Machines with labelled partial steps

A machine has start states and, for each action, a partial step.  An interleaving of concurrent
critical sections is a list of actions; a property of every interleaving is an invariant of the
reachable states.
-/

namespace Statute.Base

/-- Start states, and what an action does where it is enabled. -/
structure Machine (σ α : Type) where
  start : σ → Prop
  step : σ → α → Option σ

namespace Machine

variable {σ α : Type} (M : Machine σ α)

/-- The states some interleaving leads to. -/
inductive Reachable : σ → Prop
  | start {s : σ} (h : M.start s) : Reachable s
  | step {s t : σ} (h : Reachable s) (a : α) (hstep : M.step s a = some t) : Reachable t

/-- Run a list of actions; nothing when one of them is not enabled. -/
def run (s : σ) : List α → Option σ
  | [] => some s
  | a :: rest =>
    match M.step s a with
    | none => none
    | some t => run t rest

variable {M}

theorem Reachable.run {s t : σ} {as : List α} (hs : M.Reachable s) (h : M.run s as = some t) :
    M.Reachable t := by
  induction as generalizing s with
  | nil => exact Option.some.inj h ▸ hs
  | cons a rest ih =>
    rw [Machine.run] at h
    split at h
    · cases h
    · rename_i u hu
      exact ih (hs.step a hu) h

/-- **The invariant rule.**  What holds at the start and is kept by every step holds on every
reachable state; the step may use that its source is reachable. -/
theorem Reachable.invariant {P : σ → Prop} (hstart : ∀ s, M.start s → P s)
    (hstep : ∀ s a t, M.Reachable s → P s → M.step s a = some t → P t) {s : σ}
    (hs : M.Reachable s) : P s := by
  induction hs with
  | start h => exact hstart _ h
  | step h a ht ih => exact hstep _ a _ h ih ht

end Machine

end Statute.Base
