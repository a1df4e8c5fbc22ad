import Mathlib.Algebra.BigOperators.Group.List.Basic
import Mathlib.Data.List.Count
import Statute.Lifecycle.Workload

/-!
# Activity accounting

The activity counter of a binding counts the leases handed out for it and the reservations made for
waiters, whatever requests, waiters and settlements do.

The part of a workload that accounting looks at is its `Ledger`.  Most sections leave it alone; the
others do one of a few things to it: hand out or end a lease, open a wait, let a request join or
leave one, close a wait, or start the counter of a new binding.  Each of these keeps the ledger
balanced.

* `accounted_reachable`: the ledger of every reachable workload is balanced.
-/

namespace Statute.Lifecycle

open Statute.Base

/-! ### Ledgers -/

/-- What accounting looks at: the counters, the outstanding leases, the closed waits, the current and
the largest binding key, and the waits in progress. -/
structure Ledger where
  active : ℕ → ℤ
  leases : List ℕ
  closed : List Wait
  key : ℕ
  lastKey : ℕ
  opened : List Wait

def Workload.ledger (w : Workload) : Ledger where
  active := w.active
  leases := w.leases
  closed := w.closed
  key := w.key
  lastKey := w.lastKey
  opened := (w.activation.map Activation.wait).toList ++ (w.stop.map Stop.wait).toList

/-- The reservations on a binding that no waiter has claimed or returned. -/
def reservations (waits : List Wait) (key : ℕ) : ℤ :=
  (waits.map (fun wait => if wait.lease = key then wait.reserved else 0)).sum

/-- A wait in progress counts its requests and has reserved nothing. -/
structure Wait.Opened (wait : Wait) : Prop where
  counted : wait.waiting = wait.requests
  unreserved : wait.reserved = 0
  unleased : wait.lease = 0

/-- A closed wait has a reservation for each of its requests, or none. -/
structure Wait.Closed (wait : Wait) : Prop where
  counted : wait.waiting = wait.requests
  reserved : wait.reserved = 0 ∨ wait.reserved = wait.requests

/-- The counters are the outstanding leases and reservations. -/
structure Ledger.Balanced (l : Ledger) : Prop where
  active : ∀ k, l.active k = l.leases.count k + reservations l.closed k
  opened : ∀ wait ∈ l.opened, wait.Opened
  closed : ∀ wait ∈ l.closed, wait.Closed
  key_le : l.key ≤ l.lastKey
  leases_le : ∀ k ∈ l.leases, k ≤ l.lastKey
  closed_le : ∀ wait ∈ l.closed, wait.lease ≤ l.lastKey

theorem reservations_cons (wait : Wait) (waits : List Wait) (key : ℕ) :
    reservations (wait :: waits) key =
      (if wait.lease = key then wait.reserved else 0) + reservations waits key := by
  simp [reservations]

variable {wait : Wait}

theorem Wait.Closed.nonneg (h : wait.Closed) : 0 ≤ wait.reserved := by
  rcases h.reserved with h | h
  · omega
  · omega

theorem reservations_nonneg {waits : List Wait} (h : ∀ wait ∈ waits, wait.Closed) (key : ℕ) :
    0 ≤ reservations waits key := by
  induction waits with
  | nil => simp [reservations]
  | cons wait rest ih =>
    rw [List.forall_mem_cons] at h
    have hrest := ih h.2
    have hwait := h.1.nonneg
    rw [reservations_cons]
    split <;> omega

/-- A closed wait with reservations shows in the sum of its binding. -/
theorem reservations_pos {waits : List Wait} (h : ∀ wait ∈ waits, wait.Closed)
    (hwait : wait ∈ waits) (hreserved : wait.reserved ≠ 0) : 0 < reservations waits wait.lease := by
  induction waits with
  | nil => cases hwait
  | cons first rest ih =>
    rw [List.forall_mem_cons] at h
    have hfirst := h.1.nonneg
    have hrest := reservations_nonneg h.2 wait.lease
    rw [reservations_cons]
    rcases List.mem_cons.1 hwait with rfl | hmem
    · rw [if_pos rfl]
      omega
    · have hpos := ih h.2 hmem
      split <;> omega

theorem reservations_set {waits : List Wait} {n : ℕ} (hn : waits[n]? = some wait) (next : Wait)
    (key : ℕ) :
    reservations (waits.set n next) key =
      reservations waits key - (if wait.lease = key then wait.reserved else 0) +
        (if next.lease = key then next.reserved else 0) := by
  induction waits generalizing n with
  | nil => simp at hn
  | cons first rest ih =>
    cases n with
    | zero =>
      obtain rfl : first = wait := by simpa using hn
      rw [List.set_cons_zero, reservations_cons, reservations_cons]
      omega
    | succ n =>
      have hrest := ih (n := n) (by simpa using hn)
      rw [List.set_cons_succ, reservations_cons, reservations_cons, hrest]
      omega

theorem Wait.Opened.closed (h : wait.Opened) : wait.Closed :=
  ⟨h.counted, Or.inl h.unreserved⟩

theorem Wait.Opened.join (h : wait.Opened) : wait.join.Opened := by
  have hcounted := h.counted
  refine ⟨?_, h.unreserved, h.unleased⟩
  simp only [Wait.join]
  omega

theorem Wait.opened_empty : ({} : Wait).Opened := ⟨rfl, rfl, rfl⟩

/-! ### What keeps a ledger balanced -/

namespace Ledger.Balanced

variable {l : Ledger}

/-- A lease on the current binding is handed out. -/
theorem begin (h : l.Balanced) : ({ l with
    active := Function.update l.active l.key (l.active l.key + 1)
    leases := l.key :: l.leases } : Ledger).Balanced where
  active := fun k => by
    dsimp only
    have hk := h.active k
    rw [List.count_cons]
    by_cases hkey : k = l.key
    · subst hkey
      simp only [Function.update_self, beq_self_eq_true, if_true, Nat.cast_add, Nat.cast_one]
      omega
    · rw [Function.update_of_ne hkey, hk, if_neg (by simpa using Ne.symm hkey), Nat.add_zero]
  opened := h.opened
  closed := h.closed
  key_le := h.key_le
  leases_le := by
    intro k hk
    rcases List.mem_cons.1 hk with rfl | hk
    · exact h.key_le
    · exact h.leases_le k hk
  closed_le := h.closed_le

/-- A lease is ended. -/
theorem endLease (h : l.Balanced) {lease : ℕ} (hlease : lease ∈ l.leases) : ({ l with
    active := Function.update l.active lease (l.active lease + -1)
    leases := l.leases.erase lease } : Ledger).Balanced where
  active := fun k => by
    dsimp only
    have hk := h.active k
    by_cases hkey : k = lease
    · subst hkey
      have hpos := List.count_pos_iff.2 hlease
      simp only [Function.update_self, List.count_erase_self]
      omega
    · rw [Function.update_of_ne hkey, hk, List.count_erase_of_ne hkey]
  opened := h.opened
  closed := h.closed
  key_le := h.key_le
  leases_le := fun k hk => h.leases_le k (List.mem_of_mem_erase hk)
  closed_le := h.closed_le

/-- The waits in progress change, but each still counts its requests. -/
theorem reopen (h : l.Balanced) {opened : List Wait} (hopened : ∀ wait ∈ opened, wait.Opened) :
    ({ l with opened := opened } : Ledger).Balanced :=
  ⟨h.active, hopened, h.closed, h.key_le, h.leases_le, h.closed_le⟩

/-- A wait is closed without reservations. -/
theorem close (h : l.Balanced) {wait : Wait} (hwait : wait.Opened) :
    ({ l with closed := wait :: l.closed } : Ledger).Balanced where
  active := fun k => by
    dsimp only
    rw [h.active k, reservations_cons, hwait.unreserved]
    simp
  opened := h.opened
  closed := List.forall_mem_cons.2 ⟨hwait.closed, h.closed⟩
  key_le := h.key_le
  leases_le := h.leases_le
  closed_le := List.forall_mem_cons.2 ⟨hwait.unleased ▸ Nat.zero_le _, h.closed_le⟩

/-- A wait is closed with a reservation on the current binding for each of its requests. -/
theorem closeReserved (h : l.Balanced) {wait : Wait} (hwait : wait.Opened) : ({ l with
    active := Function.update l.active l.key (l.active l.key + wait.waiting)
    closed := { wait with reserved := wait.waiting, lease := l.key } :: l.closed } :
      Ledger).Balanced where
  active := fun k => by
    dsimp only
    have hk := h.active k
    rw [reservations_cons]
    by_cases hkey : k = l.key
    · subst hkey
      simp only [Function.update_self, if_true]
      omega
    · rw [Function.update_of_ne hkey, hk, if_neg (Ne.symm hkey), zero_add]
  opened := h.opened
  closed := List.forall_mem_cons.2 ⟨⟨hwait.counted, Or.inr hwait.counted⟩, h.closed⟩
  key_le := h.key_le
  leases_le := h.leases_le
  closed_le := List.forall_mem_cons.2 ⟨h.key_le, h.closed_le⟩

/-- A new binding starts with an empty counter. -/
theorem bind (h : l.Balanced) {key : ℕ} (hkey : l.lastKey < key) : ({ l with
    active := Function.update l.active key 0, key := key, lastKey := key } : Ledger).Balanced where
  active := fun k => by
    dsimp only
    by_cases hk : k = key
    · subst hk
      have hleases : l.leases.count k = 0 :=
        List.count_eq_zero.2 fun hk => absurd (h.leases_le k hk) (by omega)
      have hactive := h.active k
      have hzero : reservations l.closed k = 0 := by
        refine List.sum_eq_zero fun n hn => ?_
        obtain ⟨wait, hwait, rfl⟩ := List.mem_map.1 hn
        have hle := h.closed_le wait hwait
        rw [if_neg (by omega)]
      simp only [Function.update_self, hleases, hzero]
      rfl
    · rw [Function.update_of_ne hk]
      exact h.active k
  opened := h.opened
  closed := h.closed
  key_le := le_rfl
  leases_le := fun k hk => (h.leases_le k hk).trans hkey.le
  closed_le := fun wait hwait => (h.closed_le wait hwait).trans hkey.le

/-- A request takes its reservation off a closed wait; the reservation becomes a lease or leaves the
counter. -/
theorem leave (h : l.Balanced) {n : ℕ} {wait : Wait} (hn : l.closed[n]? = some wait)
    (hreserved : wait.reserved ≠ 0) (claim : Bool) : ({ l with
      active := if claim then l.active
        else Function.update l.active wait.lease (l.active wait.lease + -1)
      leases := if claim then wait.lease :: l.leases else l.leases
      closed := l.closed.set n { wait with
        waiting := wait.waiting - 1, requests := wait.requests - 1
        reserved := wait.reserved - 1 } } : Ledger).Balanced where
  active := fun k => by
    have hk := h.active k
    dsimp only
    rw [reservations_set hn]
    cases claim with
    | true =>
      simp only [if_true, List.count_cons, beq_iff_eq]
      by_cases hkey : wait.lease = k
      · simp only [hkey, if_true, Nat.cast_add, Nat.cast_one]
        omega
      · simp only [hkey, if_false]
        omega
    | false =>
      simp only [Bool.false_eq_true, if_false]
      by_cases hkey : k = wait.lease
      · subst hkey
        simp only [Function.update_self, if_true]
        omega
      · simp only [Function.update_of_ne hkey, Ne.symm hkey, if_false]
        omega
  opened := h.opened
  closed := by
    have hwait := h.closed wait (List.mem_of_getElem? hn)
    have hcounted := hwait.counted
    have hall := hwait.reserved
    intro other hother
    rcases List.mem_or_eq_of_mem_set hother with hother | rfl
    · exact h.closed other hother
    · refine ⟨?_, Or.inr ?_⟩
      · dsimp only
        omega
      · dsimp only
        omega
  key_le := h.key_le
  leases_le := by
    cases claim with
    | true => exact List.forall_mem_cons.2 ⟨h.closed_le wait (List.mem_of_getElem? hn), h.leases_le⟩
    | false => exact h.leases_le
  closed_le := by
    intro other hother
    rcases List.mem_or_eq_of_mem_set hother with hother | rfl
    · exact h.closed_le other hother
    · exact h.closed_le wait (List.mem_of_getElem? hn)

/-- A request leaves a closed wait without reservations. -/
theorem leaveUnreserved (h : l.Balanced) {n : ℕ} {wait : Wait} (hn : l.closed[n]? = some wait)
    (hrequests : wait.requests ≠ 0) (hreserved : wait.reserved = 0) : ({ l with
      closed := l.closed.set n { wait with
        waiting := wait.waiting - 1, requests := wait.requests - 1 } } : Ledger).Balanced where
  active := fun k => by
    have hk := h.active k
    dsimp only
    rw [reservations_set hn]
    simp only [hk, hreserved]
    split <;> omega
  opened := h.opened
  closed := by
    have hcounted := (h.closed wait (List.mem_of_getElem? hn)).counted
    intro other hother
    rcases List.mem_or_eq_of_mem_set hother with hother | rfl
    · exact h.closed other hother
    · refine ⟨?_, Or.inl hreserved⟩
      dsimp only
      omega
  key_le := h.key_le
  leases_le := h.leases_le
  closed_le := by
    intro other hother
    rcases List.mem_or_eq_of_mem_set hother with hother | rfl
    · exact h.closed_le other hother
    · exact h.closed_le wait (List.mem_of_getElem? hn)

/-- Without leases and reservations on a binding its counter is zero, and conversely. -/
theorem active_eq_zero_iff (h : l.Balanced) (k : ℕ) :
    l.active k = 0 ↔ k ∉ l.leases ∧ reservations l.closed k = 0 := by
  have hk := h.active k
  have hnonneg := reservations_nonneg h.closed k
  rw [← List.count_eq_zero]
  omega

theorem active_nonneg (h : l.Balanced) (k : ℕ) : 0 ≤ l.active k := by
  have hk := h.active k
  have hnonneg := reservations_nonneg h.closed k
  omega

end Ledger.Balanced

/-! ### Sections that leave the ledger alone -/

namespace Workload

@[simp] theorem ledger_moveTo (w : Workload) (next : Phase) :
    (w.moveTo next).ledger = w.ledger := by
  obtain ⟨phase, refused, hframe⟩ := w.moveTo_frame next
  rw [hframe]
  rfl

@[simp] theorem ledger_settleTo (w : Workload) (next : Phase) :
    (w.settleTo next).ledger = w.ledger := by
  obtain ⟨phase, refused, hframe⟩ := w.settleTo_frame next
  rw [hframe]
  rfl

variable (env : Env)

@[simp] theorem ledger_armIdleLocked (w : Workload) : (w.armIdleLocked env).ledger = w.ledger := by
  obtain ⟨epoch, idle, hframe⟩ := w.armIdleLocked_frame env
  rw [hframe]
  rfl

@[simp] theorem ledger_stopIdleLocked (w : Workload) : w.stopIdleLocked.ledger = w.ledger := by
  obtain ⟨phase, refused, epoch, hframe⟩ := w.stopIdleLocked_frame
  rw [hframe]
  rfl

@[simp] theorem ledger_claimIdleStop (w : Workload) (binding epoch : ℕ) :
    (w.claimIdleStop binding epoch).ledger = w.ledger := by
  unfold claimIdleStop
  split
  · rfl
  · rw [ledger_moveTo]
    rfl

@[simp] theorem ledger_revokeIdleStop (w : Workload) (binding epoch : ℕ) :
    (w.revokeIdleStop binding epoch).ledger = w.ledger := by
  unfold revokeIdleStop
  split
  · rw [ledger_moveTo]
  · rfl

@[simp] theorem ledger_retire (w : Workload) : w.retire.ledger = w.ledger := by
  rw [retire, ledger_stopIdleLocked]
  rfl

@[simp] theorem ledger_unretireLocked (w : Workload) : w.unretireLocked.ledger = w.ledger := by
  unfold unretireLocked
  split
  · rfl
  · dsimp only
    split
    · rw [ledger_stopIdleLocked, ledger_moveTo]
      rfl
    · rfl

variable {w : Workload}

/-- Changing a stop but not its wait. -/
theorem ledger_setStop {stop : Stop} (hstop : w.stop = some stop) (next : Stop)
    (hwait : next.wait = stop.wait) :
    ({ w with stop := some next } : Workload).ledger = w.ledger := by
  simp only [ledger, key, hstop, Option.map_some, hwait]

@[simp] theorem ledger_ensureStopConvergenceLocked (w : Workload) :
    (w.ensureStopConvergenceLocked env).ledger = w.ledger := by
  unfold ensureStopConvergenceLocked
  split
  · rfl
  · rename_i stop hstop
    split
    · rfl
    · exact ledger_setStop hstop _ rfl

@[simp] theorem ledger_recordObservedStopLocked (w : Workload) :
    (w.recordObservedStopLocked env).1.ledger = w.ledger := by
  unfold recordObservedStopLocked
  split
  · rfl
  · rename_i stop hstop
    dsimp only
    rw [ledger_ensureStopConvergenceLocked]
    split
    · exact ledger_setStop (w := w.invalidate) hstop _ rfl
    · exact ledger_setStop hstop _ rfl

@[simp] theorem ledger_observeStoppedWorkloadLocked (w : Workload) :
    (w.observeStoppedWorkloadLocked env).1.ledger = w.ledger := by
  unfold observeStoppedWorkloadLocked
  cases w.phase with
  | ready => simp
  | stopPending => simp
  | stopIssued | stopUnknown =>
    dsimp only
    cases w.stop with
    | none => rfl
    | some stop => dsimp only; split <;> simp
  | failed | dormant | starting => rfl

@[simp] theorem ledger_reconcileRetired (w : Workload) (running : Bool) :
    (w.reconcileRetired env running).1.ledger = w.ledger := by
  unfold reconcileRetired
  cases w.stop with
  | none => rfl
  | some stop => dsimp only; split <;> simp

@[simp] theorem ledger_appendRetiredRef (w : Workload) :
    (w.appendRetiredRef env).ledger = w.ledger := by
  unfold appendRetiredRef
  split <;> simp

@[simp] theorem ledger_resume (w : Workload) (armIdle : Bool) :
    (w.resume env armIdle).ledger = w.ledger := by
  unfold resume
  dsimp only
  split <;> split <;> simp

/-! ### Sections that keep it balanced -/

def Accounted (w : Workload) : Prop := w.ledger.Balanced

theorem Accounted.of_ledger {w' : Workload} (h : w.Accounted) (heq : w'.ledger = w.ledger) :
    w'.Accounted := by
  rw [Accounted, heq]
  exact h

theorem Accounted.activation (h : w.Accounted) {act : Activation} (hact : w.activation = some act) :
    act.wait.Opened :=
  Ledger.Balanced.opened h _ (by simp [ledger, hact])

theorem Accounted.stop (h : w.Accounted) {stop : Stop} (hstop : w.stop = some stop) :
    stop.wait.Opened :=
  Ledger.Balanced.opened h _ (by simp [ledger, hstop])

theorem Accounted.setActivation (h : w.Accounted) (next : Option Activation)
    (hnext : ∀ act, next = some act → act.wait.Opened) :
    ({ w with activation := next } : Workload).Accounted := by
  refine Ledger.Balanced.reopen (l := w.ledger) h fun wait hwait => ?_
  rcases List.mem_append.1 hwait with hwait | hwait
  · obtain ⟨act, hact, rfl⟩ := by simpa using hwait
    exact hnext act hact
  · exact h.opened wait (List.mem_append_right _ hwait)

theorem Accounted.setStop (h : w.Accounted) (next : Option Stop)
    (hnext : ∀ stop, next = some stop → stop.wait.Opened) :
    ({ w with stop := next } : Workload).Accounted := by
  refine Ledger.Balanced.reopen (l := w.ledger) h fun wait hwait => ?_
  rcases List.mem_append.1 hwait with hwait | hwait
  · exact h.opened wait (List.mem_append_left _ hwait)
  · obtain ⟨stop, hstop, rfl⟩ := by simpa using hwait
    exact hnext stop hstop

theorem Accounted.beginLocked (h : w.Accounted) : w.beginLocked.Accounted :=
  Ledger.Balanced.begin (l := w.ledger) h

theorem Accounted.endLease (h : w.Accounted) (env : Env) {lease : ℕ} (hlease : lease ∈ w.leases) :
    (w.endLease env lease).Accounted := by
  have hend : ({ w.addActive lease (-1) with leases := w.leases.erase lease } : Workload).Accounted :=
    Ledger.Balanced.endLease (l := w.ledger) h hlease
  unfold Workload.endLease
  dsimp only
  split
  · exact hend
  · exact hend.of_ledger (ledger_armIdleLocked env _)

theorem Accounted.beginActivationLocked (h : w.Accounted) (env : Env) (observe : Bool) :
    (w.beginActivationLocked env observe).1.Accounted := by
  have hmoved : (w.toLocked .starting).1.ledger = w.ledger := by
    unfold toLocked transitionLocked
    split_ifs <;> rfl
  have hnext : (w.toLocked .starting).1.Accounted := h.of_ledger hmoved
  unfold Workload.beginActivationLocked
  split
  · exact h
  · dsimp only
    split
    · exact h
    · split
      · refine hnext.setActivation _ fun act hact => ?_
        obtain rfl := Option.some.inj hact
        exact Wait.opened_empty
      · refine Accounted.of_ledger ?_ (ledger_moveTo _ _)
        exact hnext.setActivation none (by simp)

theorem Accounted.joinActivation (h : w.Accounted) : ({ w with
    activation := w.activation.map (fun act => { act with wait := act.wait.join }) } :
      Workload).Accounted := by
  refine h.setActivation _ fun act hact => ?_
  obtain ⟨old, hold, rfl⟩ := Option.map_eq_some_iff.1 hact
  exact (h.activation hold).join

theorem Accounted.beginAndWait (h : w.Accounted) (env : Env) (observe : Bool) :
    (w.beginAndWait env observe).Accounted := by
  have hbegun := h.beginActivationLocked env observe
  unfold Workload.beginAndWait
  dsimp only
  split
  · exact hbegun.joinActivation
  · exact hbegun

theorem Accounted.serveState (h : w.Accounted) (env : Env) (expected : ℕ) :
    (w.serveState env expected).Accounted := by
  unfold Workload.serveState
  split
  · exact h
  · unfold serveCurrentStateLocked
    cases w.phase with
    | ready => exact h.beginLocked
    | stopPending => exact (h.of_ledger (ledger_moveTo w .ready)).beginLocked
    | failed =>
      dsimp only
      split
      · exact h
      · exact h.beginAndWait env _
    | dormant => exact h.beginAndWait env false
    | starting => exact h.joinActivation
    | stopIssued =>
      refine h.setStop _ fun stop hstop => ?_
      obtain ⟨old, hold, rfl⟩ := Option.map_eq_some_iff.1 hstop
      exact (h.stop hold).join
    | stopUnknown => exact h

/-! ### Closing a wait -/

/-- A wait is closed without reservations, its request count unchanged. -/
theorem Accounted.close {w : Workload} (h : w.Accounted) {wait : Wait} (hwait : wait.Opened) :
    ({ w with closed := wait :: w.closed } : Workload).Accounted :=
  Ledger.Balanced.close (l := w.ledger) h hwait

theorem Accounted.closeReserved (h : w.Accounted) {wait : Wait} (hwait : wait.Opened) :
    ({ (w.reserveWaitersLocked wait).1 with
        closed := (w.reserveWaitersLocked wait).2 :: (w.reserveWaitersLocked wait).1.closed } :
      Workload).Accounted := by
  unfold reserveWaitersLocked
  split
  · exact h.close hwait
  · exact Ledger.Balanced.closeReserved (l := w.ledger) h hwait

theorem Accounted.newStopLocked (h : w.Accounted) (kind : StopKind) (binding : ℕ) :
    (w.newStopLocked kind binding).Accounted := by
  unfold Workload.newStopLocked
  split
  · exact h
  · refine Accounted.setStop (w := { w.invalidate with stops := w.stops + 1 }) h _ fun stop hstop => ?_
    obtain rfl := Option.some.inj hstop
    exact Wait.opened_empty

theorem Accounted.failActivation (h : w.Accounted) (env : Env) (act : Activation) :
    (w.failActivation env act).1.Accounted := by
  have hcounted : ({ w with
    failures := w.failures + 1, failedUntil := env.now + env.backoff, failureStopped := false } :
      Workload).Accounted := h
  unfold Workload.failActivation
  dsimp only
  split
  · exact (hcounted.of_ledger (ledger_moveTo _ _)).newStopLocked .cleanup act.binding
  · exact hcounted.of_ledger (ledger_moveTo _ _)

/-- The activation's wait is closed with a failure. -/
theorem Accounted.closeActivation (h : w.Accounted) {wait : Wait} (hwait : wait.Opened) :
    ({ w with activation := none, closed := wait :: w.closed } : Workload).Accounted :=
  (h.close hwait).setActivation none (by simp)

theorem Accounted.settleActivation (h : w.Accounted) (env : Env) {act : Activation}
    (hact : w.activation = some act) (ended : Ended) :
    (w.settleActivation env act ended).1.Accounted := by
  have hwait : ({ act.wait with failed := ended != .ready } : Wait).Opened :=
    ⟨(h.activation hact).counted, (h.activation hact).unreserved, (h.activation hact).unleased⟩
  have hstart : w.invalidate.Accounted := h
  have hfail := (hstart.failActivation env act).closeActivation hwait
  have hdormant := (hstart.of_ledger (ledger_moveTo _ .dormant)).closeActivation hwait
  unfold Workload.settleActivation
  cases ended with
  | ready =>
    have hready : (w.invalidate.moveTo .ready).clearFailureLocked.Accounted :=
      hstart.of_ledger (ledger_moveTo _ .ready)
    have hreserved := (hready.closeReserved hwait).setActivation none (by simp)
    dsimp only
    obtain ⟨epoch, idle, hframe⟩ := armIdleLocked_frame env
      ((w.invalidate.moveTo .ready).clearFailureLocked.reserveWaitersLocked
        { act.wait with failed := Ended.ready != .ready }).1
    rw [hframe]
    exact hreserved
  | cancelled => exact hdormant
  | stopped =>
    dsimp only
    split
    · exact hdormant
    · exact hfail
  | failed => exact hfail

theorem Accounted.performStop (h : w.Accounted) (binding epoch : ℕ) :
    (w.performStop binding epoch).1.Accounted := by
  unfold Workload.performStop
  split
  · exact h
  · split
    · exact h.of_ledger (ledger_moveTo _ _)
    · exact (h.of_ledger (ledger_moveTo _ _)).newStopLocked .idle w.key

/-! ### Converging a stop -/

theorem ledger_unsettleStopLocked {stop next : Stop} (hstop : w.stop = some stop)
    (hwait : next.wait = stop.wait) : (w.unsettleStopLocked next).ledger = w.ledger := by
  have hset := ledger_setStop hstop { next with issued := false } hwait
  unfold unsettleStopLocked
  dsimp only
  split
  · rw [ledger_moveTo, hset]
  · exact hset

theorem Accounted.settleStopLocked (h : w.Accounted) (env : Env) {stop : Stop}
    (hwait : stop.wait.Opened) (result : StopResult) :
    (w.settleStopLocked env stop result).Accounted := by
  have hclose : ∀ {w : Workload}, w.Accounted →
      ({ w with stop := none, closed := stop.wait :: w.closed } : Workload).Accounted :=
    fun h => (h.close hwait).setStop none (by simp)
  have hready : (w.settleTo .ready).Accounted := h.of_ledger (ledger_settleTo _ _)
  have hreserved := (hready.closeReserved hwait).setStop none (by simp)
  have hrejected : ({ ((w.settleTo .ready).reserveWaitersLocked stop.wait).1.armIdleLocked env with
      stop := none
      closed := ((w.settleTo .ready).reserveWaitersLocked stop.wait).2 ::
        (((w.settleTo .ready).reserveWaitersLocked stop.wait).1.armIdleLocked env).closed } :
      Workload).Accounted := by
    obtain ⟨epoch, idle, hframe⟩ := armIdleLocked_frame env
      ((w.settleTo .ready).reserveWaitersLocked stop.wait).1
    rw [hframe]
    exact hreserved
  unfold Workload.settleStopLocked
  cases stop.kind with
  | cleanup =>
    have hfailed : (({ w with failureStopped := result == .succeeded } : Workload).settleTo
      .failed).Accounted := Accounted.of_ledger (w := w) h (by rw [ledger_settleTo]; rfl)
    exact hclose hfailed
  | idle =>
    cases result with
    | succeeded => exact hclose (h.of_ledger (ledger_settleTo _ .dormant))
    | rejected => exact hrejected
    | ambiguous => exact hrejected

theorem Accounted.runnerMove {w' : Workload} {env : Env} {stop : Stop} {n : ℕ} {runner : Runner}
    {next : RunnerStep} {effects : List Effect} (h : w.Accounted) (hstop : w.stop = some stop)
    (hmove : RunnerMove env w stop n runner next w' effects) : w'.Accounted := by
  -- Only the last section of a settlement closes the wait; the others leave it alone.
  have hset : ∀ {next : Stop}, next.wait = stop.wait →
      ({ w with stop := some next } : Workload).Accounted :=
    fun hwait => h.of_ledger (ledger_setStop hstop _ hwait)
  have hunsettle : ∀ {next : Stop}, next.wait = stop.wait → (w.unsettleStopLocked next).Accounted :=
    fun hwait => h.of_ledger (ledger_unsettleStopLocked hstop hwait)
  cases hmove with
  | begin =>
    unfold beginStopAttempt
    split
    · exact hset rfl
    · dsimp only
      split
      · refine Accounted.of_ledger (w := w.moveTo .stopIssued) (h.of_ledger (ledger_moveTo _ _)) ?_
        exact ledger_setStop ((w.stop_moveTo .stopIssued).trans hstop) _ rfl
      · exact hset rfl
  | persist | put | read | invoke | mark | delete | retry | finish => exact hset rfl
  | commit => unfold commitOwnedStop; split <;> exact hset rfl
  | defer =>
    unfold deferOwnedStop
    split
    · exact hset rfl
    · exact hunsettle rfl
  | answer => unfold answerStop; split <;> exact hset rfl
  | apply =>
    unfold applyStopAttempt
    split_ifs
    · exact hset rfl
    · exact hunsettle rfl
    · exact hunsettle rfl
    · exact hset rfl
    · exact hset rfl
  | settle id result deleted =>
    unfold settleStopAttempt
    split
    · exact hset rfl
    · split
      · exact hunsettle rfl
      · exact Accounted.settleStopLocked (w := w.invalidate) h env (h.stop hstop) result

/-! ### Discovery -/

theorem Accounted.supersedeBindingLocked (h : w.Accounted) :
    w.supersedeBindingLocked.Accounted := by
  have hdormant : ∀ {w : Workload}, w.Accounted → (w.moveTo .dormant).Accounted :=
    fun h => h.of_ledger (ledger_moveTo _ _)
  have hstop : ∀ {stop : Stop}, w.stop = some stop → ({ w with
      stop := none
      closed := { stop.wait with superseded := true } :: w.closed } : Workload).Accounted := by
    intro stop hstop
    have hwait := h.stop hstop
    refine Accounted.setStop (h.close ?_) none (by simp)
    exact ⟨hwait.counted, hwait.unreserved, hwait.unleased⟩
  unfold Workload.supersedeBindingLocked
  split
  · split
    · exact hdormant h
    · rename_i act hact
      have hwait := h.activation hact
      refine hdormant (h.closeActivation ?_)
      exact ⟨hwait.counted, hwait.unreserved, hwait.unleased⟩
  · exact (hdormant h).of_ledger (ledger_stopIdleLocked _)
  · exact (hdormant h).of_ledger (ledger_stopIdleLocked _)
  · split
    · exact hdormant h
    · exact hdormant (hstop ‹_›)
  · split
    · exact hdormant h
    · exact hdormant (hstop ‹_›)
  · exact h
  · exact h

theorem Accounted.newBindingLocked (h : w.Accounted) {key : ℕ} (hkey : w.lastKey < key)
    (id : Bytes) : (w.newBindingLocked key id).Accounted :=
  Ledger.Balanced.bind (l := w.ledger) h hkey

theorem Accounted.bindWorkloadContainerLocked (h : w.Accounted) {key : ℕ} (hkey : w.lastKey < key)
    (id : Bytes) : (w.bindWorkloadContainerLocked key id).1.Accounted := by
  unfold Workload.bindWorkloadContainerLocked
  split
  · exact h.newBindingLocked hkey id
  · split
    · refine h.supersedeBindingLocked.newBindingLocked ?_ id
      rwa [lastKey_supersedeBindingLocked]
    · exact h

theorem Accounted.observeRunningWorkloadLocked (h : w.Accounted) (env : Env) (replaced : Bool) :
    (w.observeRunningWorkloadLocked env replaced).Accounted := by
  have hensure := h.of_ledger (ledger_ensureStopConvergenceLocked env w)
  unfold Workload.observeRunningWorkloadLocked
  cases w.phase with
  | stopIssued | stopUnknown => exact hensure
  | dormant => exact h.beginActivationLocked env true
  | failed =>
    dsimp only
    split
    · exact h
    · exact Accounted.beginActivationLocked (w := w.clearFailureLocked) h env true
  | starting | ready | stopPending => exact h

theorem Accounted.prepareObservation (h : w.Accounted) (env : Env) {key : ℕ}
    (hkey : w.lastKey < key) (id : Bytes) (running : Bool) :
    (w.prepareObservation env key id running).1.Accounted := by
  have hunretired : w.unretireLocked.Accounted := h.of_ledger (ledger_unretireLocked w)
  have hunretiredKey : w.unretireLocked.lastKey < key := by rwa [lastKey_unretireLocked]
  have hbound := hunretired.bindWorkloadContainerLocked hunretiredKey id
  unfold Workload.prepareObservation
  split
  · exact h.of_ledger (ledger_retire w)
  · split
    · exact h
    · unfold observeWorkloadLocked
      dsimp only
      split
      · exact hbound.observeRunningWorkloadLocked env _
      · exact hbound.of_ledger (ledger_observeStoppedWorkloadLocked env _)

end Workload

/-! ### Leaving a wait -/

theorem Wait.Opened.leave (h : wait.Opened) (hrequests : wait.requests ≠ 0) :
    ({ wait with waiting := wait.waiting - 1, requests := wait.requests - 1 } : Wait).Opened := by
  have hcounted := h.counted
  refine ⟨?_, h.unreserved, h.unleased⟩
  dsimp only
  omega

namespace Workload

/-- A request that leaves a wait in progress finds no reservation. -/
theorem finishWaiting_unreserved {env : Env} {w : Workload} {wait : Wait} {claim : Bool}
    (h : wait.reserved = 0) : w.finishWaiting env wait claim =
      (w, { wait with waiting := wait.waiting - 1, requests := wait.requests - 1 }) := by
  unfold finishWaiting
  exact if_pos h

/-- Whether the request of a closed wait goes on with its reservation as a lease. -/
def claims (w : Workload) (wait : Wait) (claim : Bool) : Bool :=
  !(wait.superseded || wait.failed || !claim || w.binding.isNone || w.key != wait.lease)

/-- A request that leaves a wait with reservations takes exactly one of them: it becomes its lease or
leaves the counter. -/
theorem finishWaiting_reserved (env : Env) (w : Workload) {wait : Wait} (claim : Bool)
    (h : wait.reserved ≠ 0) : ∃ epoch idle, w.finishWaiting env wait claim =
      (({ w with
          active := if w.claims wait claim then w.active
            else Function.update w.active wait.lease (w.active wait.lease + -1)
          leases := if w.claims wait claim then wait.lease :: w.leases else w.leases
          idleEpoch := epoch
          idle := idle } : Workload),
        { wait with
          waiting := wait.waiting - 1, requests := wait.requests - 1
          reserved := wait.reserved - 1 }) := by
  have hreturns : (wait.superseded || wait.failed || !claim || w.binding.isNone ||
      w.key != wait.lease) = !w.claims wait claim := by
    rw [claims, Bool.not_not]
  unfold finishWaiting
  dsimp only
  rw [if_neg h, hreturns]
  cases w.claims wait claim with
  | true => exact ⟨w.idleEpoch, w.idle, rfl⟩
  | false =>
    simp only [Bool.not_false, Bool.false_eq_true, if_true, if_false]
    split
    · obtain ⟨epoch, idle, hframe⟩ := (w.addActive wait.lease (-1)).armIdleLocked_frame env
      exact ⟨epoch, idle, by rw [hframe]; rfl⟩
    · exact ⟨w.idleEpoch, w.idle, rfl⟩

theorem Accounted.leaveWait {w w' : Workload} {env : Env} {claim : Bool} {wait : WaitRef}
    (h : w.Accounted) (hleave : w.leaveWait env claim wait = some w') : w'.Accounted := by
  cases wait with
  | activation =>
    simp only [Workload.leaveWait] at hleave
    split at hleave
    · cases hleave
    · rename_i act hact
      split at hleave
      · cases hleave
      · rename_i hrequests
        rw [finishWaiting_unreserved (h.activation hact).unreserved] at hleave
        obtain rfl := Option.some.inj hleave
        refine h.setActivation _ fun next hnext => ?_
        obtain rfl := Option.some.inj hnext
        exact (h.activation hact).leave (by simp_all)
  | stop =>
    simp only [Workload.leaveWait] at hleave
    split at hleave
    · cases hleave
    · rename_i stop hstop
      split at hleave
      · cases hleave
      · rename_i hrequests
        rw [finishWaiting_unreserved (h.stop hstop).unreserved] at hleave
        obtain rfl := Option.some.inj hleave
        refine h.setStop _ fun next hnext => ?_
        obtain rfl := Option.some.inj hnext
        exact (h.stop hstop).leave (by simp_all)
  | closed n =>
    simp only [Workload.leaveWait] at hleave
    split at hleave
    · cases hleave
    · rename_i wait hwait
      split at hleave
      · cases hleave
      · rename_i hrequests
        by_cases hreserved : wait.reserved = 0
        · rw [finishWaiting_unreserved hreserved] at hleave
          obtain rfl := Option.some.inj hleave
          exact Ledger.Balanced.leaveUnreserved (l := w.ledger) h hwait hrequests hreserved
        · obtain ⟨epoch, idle, hfinish⟩ := finishWaiting_reserved env w claim hreserved
          rw [hfinish] at hleave
          obtain rfl := Option.some.inj hleave
          exact Ledger.Balanced.leave (l := w.ledger) h hwait hreserved _

/-! ### Whole runs -/

theorem Accounted.step {w w' : Workload} {env : Env} {a : Action} {effects : List Effect}
    (h : w.Accounted) (hstep : w.step env a = some (w', effects)) : w'.Accounted := by
  cases step_move hstep with
  | serveState binding => exact h.serveState env binding
  | finishWaiting hleft => exact h.leaveWait hleft
  | endLease hlease => exact h.endLease env hlease
  | claimIdleStop binding epoch => exact h.of_ledger (ledger_claimIdleStop w binding epoch)
  | revokeIdleStop binding epoch => exact h.of_ledger (ledger_revokeIdleStop w binding epoch)
  | performStop binding epoch => exact h.performStop binding epoch
  | probe hact =>
    refine h.setActivation _ fun next hnext => ?_
    obtain rfl := Option.some.inj hnext
    exact (h.activation hact :)
  | settleActivation hact => exact h.settleActivation env hact _
  | runner hstop _ hmove => exact h.runnerMove hstop hmove
  | prepareObservation hkey id running => exact h.prepareObservation env hkey id running
  | retire => exact h.of_ledger (ledger_retire w)
  | reconcileRetired running => exact h.of_ledger (ledger_reconcileRetired env w running)
  | appendRetiredRef => exact h.of_ledger (ledger_appendRetiredRef env w)
  | resume armIdle => exact h.of_ledger (ledger_resume env w armIdle)
  | stopIdle => exact h.of_ledger (ledger_stopIdleLocked w)

theorem accounted_registered (service : Bytes) (hadBinding : Bool) (failures failedUntil : ℕ) :
    (registered service hadBinding failures failedUntil).Accounted where
  active := fun k => by simp [registered, ledger, reservations]
  opened := by simp [registered, ledger]
  closed := by simp [registered, ledger]
  key_le := by simp [registered, ledger, key]
  leases_le := by simp [registered, ledger]
  closed_le := by simp [registered, ledger]

theorem accounted_restored (service : Bytes) (kind : StopKind) (key : ℕ) (id : Bytes) :
    (restored service kind key id).Accounted where
  active := fun k => by simp [restored, ledger, reservations]
  opened := by simp [restored, ledger, Wait.opened_empty]
  closed := by simp [restored, ledger]
  key_le := le_rfl
  leases_le := by simp [restored, ledger]
  closed_le := by simp [restored, ledger]

end Workload

/-- The ledger of every reachable workload is balanced. -/
theorem accounted_reachable {w : Workload} (h : workloadMachine.Reachable w) : w.Accounted := by
  refine h.invariant ?_ ?_
  · rintro w (⟨service, hadBinding, failures, failedUntil, rfl⟩ | ⟨service, kind, key, id, rfl⟩)
    · exact Workload.accounted_registered service hadBinding failures failedUntil
    · exact Workload.accounted_restored service kind key id
  · rintro w ⟨env, a⟩ w' - hw hstep
    obtain ⟨⟨next, effects⟩, hnext, rfl⟩ := Option.map_eq_some_iff.1 hstep
    exact hw.step hnext

end Statute.Lifecycle
