import Mathlib.Data.List.Count
import Mathlib.Data.Int.Notation
import Mathlib.Tactic.Common
import Statute.Base.Machine

/-!
# The lease of a request scope

`workloadRequestState` of `workload.go`: one request may pass several gates of its workload, one after
the other under Retry and at the same time under Timeout, and they share one lease.  The sections
under the scope's lock are `beginGate`, `requestLease`, `endGate` and `close`; the call of `w.end`
that a section decides on comes after it, outside the lock.

`requestLease` holds the lock while it waits for the workload, so it is one section with its outcome.

* `lease_released_once`: who calls `w.end`, and when.
-/

namespace Statute.Lifecycle

open Statute.Base

/-- Where a gate that `beginGate` let in stands. -/
inductive GatePoint where
  /-- Between `beginGate` and `endGate`. -/
  | begun
  /-- `endGate` took the lease and has not called `w.end` yet. -/
  | releasing
  /-- `endGate` has returned. -/
  | ended
deriving DecidableEq, Repr

/-- Where the one call of `close` stands. -/
inductive ClosePoint where
  | open
  /-- `close` took the lease and has not called `w.end` yet. -/
  | releasing
  /-- `close` has returned. -/
  | done
deriving DecidableEq, Repr

/-- `workloadRequestState` and its callers.  `acquisitions` and `ends` count the leases taken from the
workload and the calls of `w.end`. -/
structure RequestScope where
  acquired : Bool := false
  active : ℤ := 0
  closed : Bool := false
  released : Bool := false
  gates : List GatePoint := []
  closer : ClosePoint := .open
  acquisitions : ℕ := 0
  ends : ℕ := 0
deriving DecidableEq, Repr

/-- The sections, and the calls of `w.end` that follow them. -/
inductive ScopeAction where
  | beginGate
  /-- `requestLease` by a gate; `ok` is the outcome of `ensureReady`. -/
  | requestLease (gate : ℕ) (ok : Bool)
  | endGate (gate : ℕ)
  /-- `endGate` goes on to `w.end`. -/
  | endLease (gate : ℕ)
  | close
  /-- `close` goes on to `w.end`. -/
  | closeLease
deriving DecidableEq, Repr

namespace RequestScope

def releaseIfFinishedLocked (s : RequestScope) : RequestScope × Bool :=
  if !s.closed || s.active != 0 || !s.acquired || s.released then (s, false)
  else ({ s with released := true }, true)

def beginGate (s : RequestScope) : RequestScope :=
  if s.closed then s else { s with active := s.active + 1, gates := s.gates ++ [.begun] }

/-- The scoped part of `requestLease`. -/
def requestLease (s : RequestScope) (ok : Bool) : RequestScope :=
  if s.acquired || !ok then s
  else { s with acquired := true, acquisitions := s.acquisitions + 1 }

def endGate (s : RequestScope) (gate : ℕ) : RequestScope :=
  let (s, release) := ({ s with active := s.active - 1 } : RequestScope).releaseIfFinishedLocked
  { s with gates := s.gates.set gate (if release then .releasing else .ended) }

/-- `close`, up to `w.end`. -/
def close (s : RequestScope) : RequestScope :=
  let (s, release) := ({ s with closed := true } : RequestScope).releaseIfFinishedLocked
  { s with closer := if release then .releasing else .done }

/-- One action, where it is enabled. -/
def step (s : RequestScope) : ScopeAction → Option RequestScope
  | .beginGate => some s.beginGate
  | .requestLease gate ok => if s.gates[gate]? = some .begun then some (s.requestLease ok) else none
  | .endGate gate => if s.gates[gate]? = some .begun then some (s.endGate gate) else none
  | .endLease gate =>
    if s.gates[gate]? = some .releasing then
      some { s with gates := s.gates.set gate .ended, ends := s.ends + 1 }
    else none
  | .close => if s.closer = .open then some s.close else none
  | .closeLease =>
    if s.closer = .releasing then some { s with closer := .done, ends := s.ends + 1 } else none

end RequestScope

def scopeMachine : Machine RequestScope ScopeAction where
  start s := s = {}
  step s a := s.step a

namespace RequestScope

/-! ### The invariant -/

/-- The calls of `w.end` that were decided on and not made yet. -/
def pending (s : RequestScope) : ℕ :=
  s.gates.count .releasing + if s.closer = .releasing then 1 else 0

/-- The lease goes out when the last gate ends after `close`, and only then. -/
structure Inv (s : RequestScope) : Prop where
  active : s.active = s.gates.count .begun
  acquisitions : s.acquisitions = if s.acquired then 1 else 0
  ends : s.ends + s.pending = if s.released then 1 else 0
  closed : s.closed = (s.closer != .open)
  released : s.released = true ↔ s.closed = true ∧ s.active = 0 ∧ s.acquired = true

/-- The number of gates at a point after one of them moved. -/
theorem count_set {gates : List GatePoint} {n : ℕ} {old : GatePoint} (h : gates[n]? = some old)
    (next point : GatePoint) :
    (gates.set n next).count point + (if old = point then 1 else 0) =
      gates.count point + (if next = point then 1 else 0) := by
  induction gates generalizing n with
  | nil => simp at h
  | cons first rest ih =>
    cases n with
    | zero =>
      obtain rfl : first = old := by simpa using h
      simp only [List.set_cons_zero, List.count_cons, beq_iff_eq]
      omega
    | succ n =>
      have hrest := ih (n := n) (by simpa using h)
      simp only [List.set_cons_succ, List.count_cons, beq_iff_eq]
      omega

/-- An unreleased scope is released exactly when its gates have ended, it is closed and it has a
lease. -/
theorem releaseIfFinishedLocked_eq {s : RequestScope} (h : s.released = false) :
    ∃ release : Bool, s.releaseIfFinishedLocked = ({ s with released := release }, release) ∧
      (release = true ↔ s.closed = true ∧ s.active = 0 ∧ s.acquired = true) := by
  unfold releaseIfFinishedLocked
  by_cases hfinished : s.closed = true ∧ s.active = 0 ∧ s.acquired = true
  · refine ⟨true, ?_, by simp [hfinished]⟩
    rw [if_neg (by simp [hfinished, h])]
  · refine ⟨false, ?_, by simpa using hfinished⟩
    have hkeep : (!s.closed || s.active != 0 || !s.acquired || s.released) = true := by
      by_contra hno
      simp only [Bool.or_eq_true, not_or, Bool.not_eq_true', bne_iff_ne, ne_eq, not_not,
        Bool.not_eq_false] at hno
      exact hfinished ⟨hno.1.1.1, hno.1.1.2, hno.1.2⟩
    rw [if_pos hkeep, ← h]

namespace Inv

variable {s : RequestScope}

/-- While a gate is active nothing has been released. -/
theorem unreleased_of_begun (h : s.Inv) {n : ℕ} (hn : s.gates[n]? = some .begun) :
    s.released = false := by
  have hcount := List.count_pos_iff.2 (List.mem_of_getElem? hn)
  have hactive := h.active
  by_contra hreleased
  have hzero := (h.released.1 (by simpa using hreleased)).2.1
  omega

/-- Before `close` nothing has been released. -/
theorem unreleased_of_open (h : s.Inv) (hopen : s.closer = .open) : s.released = false := by
  have hclosed := h.closed
  by_contra hreleased
  have hyes := (h.released.1 (by simpa using hreleased)).1
  rw [hopen, hyes] at hclosed
  cases hclosed

theorem beginGate (h : s.Inv) : s.beginGate.Inv := by
  unfold RequestScope.beginGate
  split
  · exact h
  · rename_i hopen
    have hunclosed : s.closed = false := by simpa using hopen
    have hactive := h.active
    have hends := h.ends
    refine ⟨?_, h.acquisitions, ?_, h.closed, ?_⟩
    · simp [hactive]
    · simpa [pending] using hends
    · have hunreleased : s.released = false := by
        by_contra hreleased
        have hyes := (h.released.1 (by simpa using hreleased)).1
        rw [hunclosed] at hyes
        cases hyes
      simp [hunclosed, hunreleased]

theorem requestLease (h : s.Inv) {n : ℕ} (hn : s.gates[n]? = some .begun) (ok : Bool) :
    (s.requestLease ok).Inv := by
  have hunreleased := h.unreleased_of_begun hn
  have hcount := List.count_pos_iff.2 (List.mem_of_getElem? hn)
  have hactive := h.active
  unfold RequestScope.requestLease
  split
  · exact h
  · rename_i hfirst
    simp only [Bool.or_eq_true, not_or, Bool.not_eq_true', Bool.not_eq_false] at hfirst
    have hnone : s.acquired = false := by simpa using hfirst.1
    have hacquisitions := h.acquisitions
    refine ⟨hactive, ?_, h.ends, h.closed, ?_⟩
    · simp [hacquisitions, hnone]
    · -- The gate that acquires the lease is active, so the scope is not finished.
      have hbusy : s.active ≠ 0 := by omega
      simp [hunreleased, hbusy]

theorem endGate (h : s.Inv) {n : ℕ} (hn : s.gates[n]? = some .begun) : (s.endGate n).Inv := by
  have hunreleased := h.unreleased_of_begun hn
  have hactive := h.active
  have hends := h.ends
  obtain ⟨release, heq, hrelease⟩ := releaseIfFinishedLocked_eq
    (s := { s with active := s.active - 1 }) hunreleased
  have hbegun : (s.gates.set n (if release then .releasing else .ended)).count .begun + 1 =
      s.gates.count .begun := by
    have hcount := count_set hn (if release then .releasing else .ended) .begun
    cases release <;> simpa using hcount
  have hreleasing : (s.gates.set n (if release then .releasing else .ended)).count .releasing =
      s.gates.count .releasing + if release then 1 else 0 := by
    have hcount := count_set hn (if release then .releasing else .ended) .releasing
    cases release <;> simpa using hcount
  unfold RequestScope.endGate
  rw [heq]
  refine ⟨?_, h.acquisitions, ?_, h.closed, hrelease⟩
  · dsimp only
    omega
  · simp only [hunreleased, pending, Bool.false_eq_true, if_false] at hends
    simp only [pending, hreleasing]
    omega

theorem endLease (h : s.Inv) {n : ℕ} (hn : s.gates[n]? = some .releasing) :
    ({ s with gates := s.gates.set n .ended, ends := s.ends + 1 } : RequestScope).Inv := by
  have hactive := h.active
  have hends := h.ends
  have hbegun := count_set hn .ended .begun
  have hreleasing := count_set hn .ended .releasing
  simp only [reduceCtorEq, if_true, if_false] at hbegun hreleasing
  refine ⟨?_, h.acquisitions, ?_, h.closed, h.released⟩
  · dsimp only
    omega
  · simp only [pending] at hends ⊢
    omega

theorem close (h : s.Inv) (hopen : s.closer = .open) : s.close.Inv := by
  have hunreleased := h.unreleased_of_open hopen
  have hends := h.ends
  obtain ⟨release, heq, hrelease⟩ := releaseIfFinishedLocked_eq
    (s := { s with closed := true }) hunreleased
  unfold RequestScope.close
  rw [heq]
  refine ⟨h.active, h.acquisitions, ?_, ?_, hrelease⟩
  · rw [hunreleased] at hends
    simp only [pending, hopen] at hends ⊢
    cases release <;> simp at hends ⊢ <;> omega
  · cases release <;> rfl

theorem closeLease (h : s.Inv) (hreleasing : s.closer = .releasing) :
    ({ s with closer := .done, ends := s.ends + 1 } : RequestScope).Inv := by
  have hends := h.ends
  have hclosed := h.closed
  refine ⟨h.active, h.acquisitions, ?_, ?_, h.released⟩
  · simp only [pending, hreleasing, if_true] at hends ⊢
    simpa [Nat.add_assoc, Nat.add_comm, Nat.add_left_comm] using hends
  · rw [hreleasing] at hclosed
    exact hclosed

theorem step {s' : RequestScope} {a : ScopeAction} (h : s.Inv) (hstep : s.step a = some s') :
    s'.Inv := by
  cases a with
  | beginGate =>
    obtain rfl := Option.some.inj hstep
    exact h.beginGate
  | requestLease gate ok =>
    obtain ⟨hn, heq⟩ := Option.ite_none_right_eq_some.1 hstep
    obtain rfl := Option.some.inj heq
    exact h.requestLease hn ok
  | endGate gate =>
    obtain ⟨hn, heq⟩ := Option.ite_none_right_eq_some.1 hstep
    obtain rfl := Option.some.inj heq
    exact h.endGate hn
  | endLease gate =>
    obtain ⟨hn, heq⟩ := Option.ite_none_right_eq_some.1 hstep
    obtain rfl := Option.some.inj heq
    exact h.endLease hn
  | close =>
    obtain ⟨hopen, heq⟩ := Option.ite_none_right_eq_some.1 hstep
    obtain rfl := Option.some.inj heq
    exact h.close hopen
  | closeLease =>
    obtain ⟨hreleasing, heq⟩ := Option.ite_none_right_eq_some.1 hstep
    obtain rfl := Option.some.inj heq
    exact h.closeLease hreleasing

end Inv

theorem inv_start : ({} : RequestScope).Inv :=
  ⟨rfl, rfl, rfl, rfl, by simp⟩

end RequestScope

theorem scope_inv_reachable {s : RequestScope} (h : scopeMachine.Reachable s) : s.Inv := by
  refine h.invariant ?_ ?_
  · rintro s rfl
    exact RequestScope.inv_start
  · intro s a t _ hs hstep
    exact hs.step hstep

/-- **One release per scope.**  In every interleaving of gates with one `close`: the lease is acquired
at most once, and `w.end` is called at most once; a call that was made or decided on comes after
`close`, with no gate active; and once `close` and every gate that began have returned, a lease that
was acquired has been ended exactly once. -/
theorem lease_released_once {s : RequestScope} (h : scopeMachine.Reachable s) :
    s.acquisitions ≤ 1 ∧ s.ends + s.pending ≤ 1 ∧
      (0 < s.ends + s.pending →
        s.closed = true ∧ s.acquisitions = 1 ∧ ∀ gate ∈ s.gates, gate ≠ .begun) ∧
      (s.closer = .done → (∀ gate ∈ s.gates, gate = .ended) → s.acquisitions = 1 → s.ends = 1) := by
  have hs := scope_inv_reachable h
  have hacquisitions := hs.acquisitions
  have hends := hs.ends
  have hactive := hs.active
  have hidle : s.active = 0 ↔ ∀ gate ∈ s.gates, gate ≠ .begun := by
    rw [hactive, Int.natCast_eq_zero, List.count_eq_zero]
    exact ⟨fun hno gate hgate heq => hno (heq ▸ hgate), fun hall hmem => hall _ hmem rfl⟩
  refine ⟨?_, ?_, ?_, ?_⟩
  · rw [hacquisitions]
    split <;> omega
  · rw [hends]
    split <;> omega
  · intro hpos
    have hreleased : s.released = true := by
      by_contra hno
      rw [if_neg hno] at hends
      omega
    obtain ⟨hclosed, hzero, hacquired⟩ := hs.released.1 hreleased
    refine ⟨hclosed, ?_, hidle.1 hzero⟩
    rw [hacquisitions, if_pos hacquired]
  · intro hdone hended hone
    have hacquired : s.acquired = true := by
      by_contra hno
      rw [if_neg hno] at hacquisitions
      omega
    have hclosed : s.closed = true := by rw [hs.closed, hdone]; rfl
    have hzero : s.active = 0 := hidle.2 fun gate hgate => by simp [hended gate hgate]
    have hreleased := hs.released.2 ⟨hclosed, hzero, hacquired⟩
    have hnone : s.gates.count .releasing = 0 := by
      rw [List.count_eq_zero]
      intro hmem
      exact absurd (hended _ hmem) (by simp)
    rw [if_pos hreleased, RequestScope.pending, hnone, hdone] at hends
    simpa using hends

/-- A Timeout producer acquires the lease, the outer handler returns, and the producer ends last. -/
def lateGate : List ScopeAction :=
  [.beginGate, .requestLease 0 true, .beginGate, .requestLease 1 true, .endGate 0, .close, .endGate 1,
    .endLease 1]

theorem lease_released_once_lateGate : ∃ s, scopeMachine.Reachable s ∧ s.closer = .done ∧
    s.gates = [.ended, .ended] ∧ s.acquisitions = 1 ∧ s.ends = 1 := by
  have hstart : scopeMachine.Reachable {} := .start rfl
  have hreach := hstart.run (show scopeMachine.run _ lateGate = some _ from rfl)
  exact ⟨_, hreach, rfl, rfl, rfl,
    (lease_released_once hreach).2.2.2 rfl (by decide) rfl⟩

end Statute.Lifecycle
