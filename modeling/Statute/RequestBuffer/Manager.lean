import Statute.Base.Heap
import Statute.Base.Machine
import Statute.RequestBuffer.Consume

/-!
# The shared budgets of request buffers

`requestBufferManager`: one per server, with a budget of memory, one of disk space and a number of
buffers.  Requests run side by side; an action of the machine is what a request does between two
points where the others can act, so `grow` is two actions, with both allocations charged in between,
and `release` is two, the count of holders and then the manager.

* `Accounted`: the counters are the sums over the buffers that are not freed, within the budgets;
* `request_buffer_exact`: a body is buffered exactly or refused for its size, the growth guard leaves
  only the budget to refuse, and the counters are exact over every interleaving.
-/

namespace Statute.RequestBuffer

open Statute.Base

/-- `resolved.RequestBufferResources`, as `resolveRequestBufferResources` lets it through. -/
structure Resources where
  memoryBudget : ℤ
  diskBudget : ℤ
  maxInFlight : ℤ
  storage : Bytes
  memory_pos : 0 < memoryBudget
  disk_nonneg : 0 ≤ diskBudget
  maxInFlight_nonneg : 0 ≤ maxInFlight

/-- The policy of a route: its maximum and its memory threshold.  `requestBufferSize` admits only
sizes with one byte to spare in an int, so no sum with them overflows. -/
structure Policy where
  maximum : ℕ
  memoryThreshold : ℕ

/-- The threshold of `requestBufferHandler`: without storage nothing is spilled. -/
def Policy.limit (p : Policy) (storage : Bytes) : ℕ :=
  if storage ≠ [] then min p.maximum p.memoryThreshold else p.maximum

/-- `requestBufferManager`. -/
structure Manager where
  memory : ℤ := 0
  disk : ℤ := 0
  active : ℤ := 0
  closed : Bool := false

namespace Manager

variable (cfg : Resources)

/-- `acquire`: `none` when the buffer is refused. -/
def acquire (m : Manager) (size : ℤ) : Option Manager :=
  if m.closed || decide (m.active ≥ cfg.maxInFlight) ||
      decide (size > cfg.memoryBudget - m.memory) then none
  else some { m with memory := m.memory + size, active := m.active + 1 }

/-- Whether the budget lets `grow` reserve. -/
def mayGrow (m : Manager) (size : ℤ) : Bool := !decide (size > cfg.memoryBudget - m.memory)

/-- Whether the budget lets `reserveDisk` reserve. -/
def mayReserveDisk (m : Manager) (size : ℤ) : Bool := !decide (size > cfg.diskBudget - m.disk)

end Manager

/-- A buffer with its holders.  Ghost: the body it was acquired for. -/
structure Upload (σ : Type) where
  policy : Policy
  body : Option σ
  consume : Consume σ
  refs : ℤ := 1
  freed : Bool := false

instance instInhabitedUpload {σ : Type} : Inhabited (Upload σ) :=
  ⟨{ policy := ⟨0, 0⟩, body := none, consume := .start 0 none }⟩

/-- The server: the manager, and every buffer it ever made. -/
structure Server (σ : Type) where
  manager : Manager := {}
  uploads : Heap (Upload σ) := Heap.empty

/-- What can happen next. -/
inductive Action (σ : Type) where
  | acquire (policy : Policy) (contentLength : ℤ) (body : Option σ)
  | step (i : ℕ) (ok : Bool)
  | retain (i : ℕ)
  | release (i : ℕ)
  | free (i : ℕ)
  | stopAdmission

namespace Server

variable {σ : Type} (read : σ → ℕ → Chunk σ) (cfg : Resources)

/-- One more piece of the `consume` of an upload. -/
def advance (s : Server σ) (i : ℕ) (ok : Bool) : Heap (Upload σ) :=
  s.uploads.modify i fun u =>
    { u with consume := u.consume.step read u.policy.maximum (u.policy.limit cfg.storage) ok }

/-- The answer to a piece of `consume`: the manager's, where it is asked. -/
def answer (m : Manager) (u : Upload σ) (ok : Bool) : Bool :=
  match u.consume.phase with
  | .growing _ => m.mayGrow cfg (u.consume.buffer.grownSize (u.policy.limit cfg.storage + 1))
  | .reserving _ => m.mayReserveDisk cfg u.policy.maximum
  | _ => ok

/-- The manager after a piece of `consume`. -/
def charged (m : Manager) (u : Upload σ) (ok : Bool) : Manager :=
  match u.consume.phase with
  | .growing _ =>
    let size := u.consume.buffer.grownSize (u.policy.limit cfg.storage + 1)
    if size ≤ u.consume.buffer.memory || !ok then m else { m with memory := m.memory + size }
  | .copying _ old => { m with memory := m.memory - old }
  | .reserving _ => if ok then { m with disk := m.disk + u.policy.maximum } else m
  | _ => m

/-- A piece of `consume`, with its effect on the manager. -/
def consumeStep (s : Server σ) (i : ℕ) (ok : Bool) : Server σ :=
  let ok := answer cfg s.manager (s.uploads.cell i) ok
  { manager := charged cfg s.manager (s.uploads.cell i) ok
    uploads := s.advance read cfg i ok }

/-- `requestBufferHandler` up to `consume`. -/
def handle (s : Server σ) (p : Policy) (contentLength : ℤ) (body : Option σ) : Server σ :=
  let size := requestBufferInitialSize body contentLength (p.limit cfg.storage) cfg.memoryBudget
  match s.manager.acquire cfg size with
  | none => s
  | some m =>
    { manager := m
      uploads := s.uploads.alloc
        { policy := p, body := body, consume := .start size.toNat body } }

/-- The end of `release`, by the last holder. -/
def free (s : Server σ) (i : ℕ) : Server σ :=
  let b := (s.uploads.cell i).consume.buffer
  { manager := { s.manager with
      memory := s.manager.memory - b.memory
      disk := s.manager.disk - b.disk
      active := s.manager.active - 1 }
    uploads := s.uploads.modify i fun u =>
      { u with
        freed := true
        consume := { u.consume with buffer := { u.consume.buffer with data := [] } } } }

/-- Whether an upload has been read; before that only its handler holds it. -/
def Settled (c : Consume σ) : Bool :=
  match c.phase with
  | .done _ => true
  | _ => false

/-- What an action does, where it is enabled. -/
def step (s : Server σ) (a : Action σ) : Option (Server σ) :=
  match a with
  | .acquire p contentLength body => some (s.handle cfg p contentLength body)
  | .step i ok =>
    if i < s.uploads.size ∧ Settled (s.uploads.cell i).consume = false then
      some (s.consumeStep read cfg i ok)
    else none
  | .retain i =>
    if i < s.uploads.size ∧ Settled (s.uploads.cell i).consume = true ∧ 0 < (s.uploads.cell i).refs then
      some { s with uploads := s.uploads.modify i fun u => { u with refs := u.refs + 1 } }
    else none
  | .release i =>
    if i < s.uploads.size ∧ Settled (s.uploads.cell i).consume = true ∧ 0 < (s.uploads.cell i).refs then
      some { s with uploads := s.uploads.modify i fun u => { u with refs := u.refs - 1 } }
    else none
  | .free i =>
    if i < s.uploads.size ∧ (s.uploads.cell i).refs = 0 ∧ (s.uploads.cell i).freed = false then
      some (s.free i)
    else none
  | .stopAdmission => some { s with manager := { s.manager with closed := true } }

/-- The server, from its start. -/
def machine : Machine (Server σ) (Action σ) where
  start := fun s => s = {}
  step := step read cfg

/-! ### What an upload is charged for -/

/-- The old allocation, while it is copied. -/
def copied : Phase σ → ℤ
  | .copying _ old => old
  | _ => 0

/-- The memory of a read in progress. -/
def memoryOf (c : Consume σ) : ℤ := c.buffer.memory + copied c.phase

/-- What an upload holds of the memory budget. -/
def memoryCharge (u : Upload σ) : ℤ := if u.freed then 0 else memoryOf u.consume

/-- What an upload holds of the disk budget. -/
def diskCharge (u : Upload σ) : ℤ := if u.freed then 0 else u.consume.buffer.disk

def slotCharge (u : Upload σ) : ℤ := if u.freed then 0 else 1

/-- A buffer is spilled once: where it may still be spilled, it holds no disk space. -/
def Unspilled (c : Consume σ) : Prop :=
  match c.phase with
  | .head _ | .growing _ | .copying _ _ | .reading _ => c.buffer.file = none → c.buffer.disk = 0
  | .reserving _ => c.buffer.disk = 0
  | .writing _ _ => c.buffer.file ≠ none
  | _ => True

section Charges

variable {read cfg} {c : Consume σ} {maximum threshold : ℕ}

@[simp] theorem copied_stored (next : Option σ) : copied (Consume.stored next) = 0 := by
  cases next <;> rfl

/-- Reading changes no charge. -/
theorem readChunk_charges (s : σ) :
    (c.readChunk read maximum threshold s).buffer.memory = c.buffer.memory ∧
      (c.readChunk read maximum threshold s).buffer.disk = c.buffer.disk ∧
      copied (c.readChunk read maximum threshold s).phase = 0 := by
  unfold Consume.readChunk
  generalize read s (c.buffer.window maximum) = chunk
  simp only
  generalize (if chunk.data.length = 0 ∧ chunk.eof = false then c.emptyReads + 1 else 0) = empties
  split
  · exact ⟨rfl, rfl, rfl⟩
  split
  · exact ⟨rfl, rfl, rfl⟩
  split
  · exact ⟨rfl, rfl, rfl⟩
  split
  · exact ⟨rfl, rfl, rfl⟩
  · exact ⟨rfl, rfl, copied_stored _⟩

/-- Only growing changes the memory that is held: by the new slice, and then by the old one. -/
theorem memoryOf_step (ok : Bool) : memoryOf (c.step read maximum threshold ok) =
    match c.phase with
    | .growing _ =>
      if c.buffer.grownSize (threshold + 1) ≤ c.buffer.memory || !ok then memoryOf c
      else memoryOf c + c.buffer.grownSize (threshold + 1)
    | .copying _ old => memoryOf c - old
    | _ => memoryOf c := by
  unfold memoryOf Consume.step
  cases hphase : c.phase with
  | growing s =>
    simp only
    split
    · simp only [Consume.finish, copied]
    · simp only [Buffer.enlarge, copied]
      ring
  | copying s old =>
    simp only [copied]
    ring
  | reading s =>
    simp only
    rw [(readChunk_charges s).1, (readChunk_charges s).2.2]
    rfl
  | head s => simp only; split <;> [rfl; (split <;> rfl)]
  | reserving | creating => simp only; split <;> rfl
  | filling | writing =>
    simp only
    split
    · rfl
    · rw [copied_stored]
      rfl
  | done status => rw [hphase]

/-- Only a spill changes the disk space that is held. -/
theorem disk_step (ok : Bool) : (c.step read maximum threshold ok).buffer.disk =
    match c.phase with
    | .reserving _ => if ok then maximum else c.buffer.disk
    | _ => c.buffer.disk := by
  unfold Consume.step
  cases hphase : c.phase with
  | reserving next => cases ok <;> rfl
  | reading s => exact (readChunk_charges s).2.1
  | head s => simp only; split <;> [rfl; (split <;> rfl)]
  | growing | creating | filling | writing => simp only; split <;> rfl
  | copying | done => rfl

theorem unspilled_stored {c : Consume σ} {next : Option σ}
    (h : c.buffer.file = none → c.buffer.disk = 0) :
    Unspilled { c with phase := Consume.stored next } := by
  cases next with
  | none => trivial
  | some s => exact h

theorem readChunk_unspilled {s : σ} (h : c.buffer.file = none → c.buffer.disk = 0) :
    Unspilled (c.readChunk read maximum threshold s) := by
  unfold Consume.readChunk
  generalize read s (c.buffer.window maximum) = chunk
  simp only
  generalize (if chunk.data.length = 0 ∧ chunk.eof = false then c.emptyReads + 1 else 0) = empties
  split
  · trivial
  split
  · trivial
  split
  · rename_i hsome
    intro hnone
    rw [hnone] at hsome
    cases hsome
  rename_i hnone
  rw [Bool.not_eq_true, Option.isSome_eq_false_iff, Option.isNone_iff_eq_none] at hnone
  split
  · exact h hnone
  · exact unspilled_stored (c := ⟨_, _, c.phase⟩) h

theorem unspilled_step (ok : Bool) (h : Unspilled c) :
    Unspilled (c.step read maximum threshold ok) := by
  unfold Unspilled at h
  unfold Consume.step
  cases hphase : c.phase <;> simp only [hphase] at h
  case head s =>
    simp only
    split
    · trivial
    · split <;> exact h
  case growing s =>
    simp only
    split
    · trivial
    · exact h
  case copying s old => exact h
  case reading s => exact readChunk_unspilled h
  case reserving next => simp only; split <;> trivial
  case creating next => simp only; split <;> trivial
  case filling next =>
    simp only
    split
    · trivial
    · exact unspilled_stored (c := ⟨_, _, c.phase⟩) fun hnone => absurd hnone (by simp)
  case writing n next =>
    simp only
    split
    · trivial
    · refine unspilled_stored (c := ⟨_, _, c.phase⟩) fun hnone => absurd ?_ h
      exact Option.map_eq_none_iff.mp hnone
  case done status =>
    rw [Unspilled, hphase]
    trivial

end Charges

/-! ### The invariant -/

/-- What holds of one upload. -/
structure Own (u : Upload σ) : Prop where
  unspilled : Unspilled u.consume
  held : Settled u.consume = false → u.refs = 1 ∧ u.freed = false
  exact : u.freed = false → ∀ text, Consume.Rest read 0 text u.body →
    Consume.Sound read u.policy.maximum (u.policy.limit cfg.storage) text u.consume ∨
      u.consume.phase = .done 503

/-- **The counters.**  They are the sums of what the uploads hold, and within the budgets. -/
structure Accounted (s : Server σ) : Prop where
  memory : s.manager.memory = s.uploads.total memoryCharge
  disk : s.manager.disk = s.uploads.total diskCharge
  active : s.manager.active = s.uploads.total slotCharge
  memory_le : s.manager.memory ≤ cfg.memoryBudget
  disk_le : s.manager.disk ≤ cfg.diskBudget
  active_le : s.manager.active ≤ cfg.maxInFlight
  own : ∀ i < s.uploads.size, Own read cfg (s.uploads.cell i)

section Invariant

variable {read cfg} {s : Server σ} {i : ℕ}

theorem accounted_start : Accounted read cfg ({} : Server σ) where
  memory := rfl
  disk := rfl
  active := rfl
  memory_le := cfg.memory_pos.le
  disk_le := cfg.disk_nonneg
  active_le := cfg.maxInFlight_nonneg
  own := fun i hi => absurd hi (Nat.not_lt_zero i)

/-- A change of one upload that keeps what it holds keeps the account. -/
theorem Accounted.modify (h : Accounted read cfg s) (hi : i < s.uploads.size) {f : Upload σ → Upload σ}
    (hmemory : memoryCharge (f (s.uploads.cell i)) = memoryCharge (s.uploads.cell i))
    (hdisk : diskCharge (f (s.uploads.cell i)) = diskCharge (s.uploads.cell i))
    (hslot : slotCharge (f (s.uploads.cell i)) = slotCharge (s.uploads.cell i))
    (hown : Own read cfg (f (s.uploads.cell i))) :
    Accounted read cfg { s with uploads := s.uploads.modify i f } where
  memory := by rw [Heap.total_modify hi, hmemory, sub_add_cancel]; exact h.memory
  disk := by rw [Heap.total_modify hi, hdisk, sub_add_cancel]; exact h.disk
  active := by rw [Heap.total_modify hi, hslot, sub_add_cancel]; exact h.active
  memory_le := h.memory_le
  disk_le := h.disk_le
  active_le := h.active_le
  own := fun j hj => by
    show Own read cfg ((s.uploads.modify i f).cell j)
    rw [Heap.cell_modify]
    split
    · exact hown
    · exact h.own j hj

/-- A piece of `consume` keeps what holds of its upload. -/
theorem Own.step {u : Upload σ} (h : Own read cfg u) (hopen : Settled u.consume = false) (ok : Bool) :
    Own read cfg
      { u with consume := u.consume.step read u.policy.maximum (u.policy.limit cfg.storage) ok } where
  unspilled := unspilled_step ok h.unspilled
  held := fun _ => h.held hopen
  exact := fun hfreed text hrest => by
    rcases h.exact hfreed text hrest with hsound | hrefused
    · exact (Consume.step_sound ok hsound).imp_right And.right
    · rw [Settled, hrefused] at hopen
      cases hopen

/-- What a piece of `consume` does to the counters is what it does to the upload's charges. -/
theorem charged_eq (m : Manager) {u : Upload σ} (hunspilled : Unspilled u.consume) (ok : Bool) :
    let c := u.consume.step read u.policy.maximum (u.policy.limit cfg.storage) ok
    (charged cfg m u ok).memory = m.memory - memoryOf u.consume + memoryOf c ∧
      (charged cfg m u ok).disk = m.disk - u.consume.buffer.disk + c.buffer.disk ∧
      (charged cfg m u ok).active = m.active := by
  simp only [memoryOf_step, disk_step]
  unfold charged
  cases hphase : u.consume.phase
  case growing t =>
    simp only
    split
    · exact ⟨by omega, by omega, rfl⟩
    · refine ⟨?_, by simp only; omega, rfl⟩
      simp only
      omega
  case copying t old => exact ⟨by simp only; omega, by simp only; omega, rfl⟩
  case reserving next =>
    rw [Unspilled, hphase] at hunspilled
    cases ok with
    | false => exact ⟨by simp only [Bool.false_eq_true, if_false]; omega, by simp, rfl⟩
    | true =>
      simp only [if_true, hunspilled]
      exact ⟨by omega, by simp, trivial⟩
  all_goals exact ⟨by simp only; omega, by simp only; omega, rfl⟩

/-- The manager answers within its budgets. -/
theorem charged_le (m : Manager) {u : Upload σ} (ok : Bool) (hmemory : m.memory ≤ cfg.memoryBudget)
    (hdisk : m.disk ≤ cfg.diskBudget) :
    (charged cfg m u (answer cfg m u ok)).memory ≤ cfg.memoryBudget ∧
      (charged cfg m u (answer cfg m u ok)).disk ≤ cfg.diskBudget := by
  unfold charged answer
  cases hphase : u.consume.phase
  case growing t =>
    simp only
    split
    · exact ⟨hmemory, hdisk⟩
    · rename_i hgrows
      rw [Bool.or_eq_true, not_or, Bool.not_eq_true', Bool.not_eq_false, Manager.mayGrow,
        Bool.not_eq_true', decide_eq_false_iff_not] at hgrows
      refine ⟨?_, hdisk⟩
      simp only
      omega
  case copying t old => exact ⟨by simp only; omega, hdisk⟩
  case reserving next =>
    simp only
    split
    · rename_i hgranted
      rw [Manager.mayReserveDisk, Bool.not_eq_true', decide_eq_false_iff_not] at hgranted
      refine ⟨hmemory, ?_⟩
      simp only
      omega
    · exact ⟨hmemory, hdisk⟩
  all_goals exact ⟨hmemory, hdisk⟩

/-- A piece of `consume` keeps the account. -/
theorem consumeStep_accounted (h : Accounted read cfg s) (hi : i < s.uploads.size)
    (hopen : Settled (s.uploads.cell i).consume = false) (ok : Bool) :
    Accounted read cfg (s.consumeStep read cfg i ok) := by
  have hown := h.own i hi
  have hfreed := (hown.held hopen).2
  obtain ⟨hmemory_le, hdisk_le⟩ :=
    charged_le s.manager (u := s.uploads.cell i) ok h.memory_le h.disk_le
  unfold consumeStep
  simp only
  generalize answer cfg s.manager (s.uploads.cell i) ok = granted at *
  obtain ⟨hmemory, hdisk, hactive⟩ := charged_eq s.manager hown.unspilled granted
  refine ⟨?_, ?_, ?_, hmemory_le, hdisk_le, hactive.trans_le h.active_le, fun j hj => ?_⟩
  · rw [advance, Heap.total_modify hi, ← h.memory]
    simpa only [memoryCharge, hfreed, Bool.false_eq_true, if_false] using hmemory
  · rw [advance, Heap.total_modify hi, ← h.disk]
    simpa only [diskCharge, hfreed, Bool.false_eq_true, if_false] using hdisk
  · rw [advance, Heap.total_modify hi, ← h.active]
    simpa only [slotCharge, hfreed, Bool.false_eq_true, if_false, sub_add_cancel] using hactive
  · show Own read cfg ((s.advance read cfg i granted).cell j)
    rw [advance, Heap.cell_modify]
    split
    · exact hown.step hopen granted
    · exact h.own j hj

/-- A new upload holds what the manager was charged for it. -/
theorem handle_accounted (h : Accounted read cfg s) (p : Policy) (contentLength : ℤ)
    (body : Option σ) : Accounted read cfg (s.handle cfg p contentLength body) := by
  unfold handle
  simp only
  generalize hsize :
    requestBufferInitialSize body contentLength (p.limit cfg.storage) cfg.memoryBudget = size
  have hnonneg : 0 ≤ size := by
    have := cfg.memory_pos
    rw [← hsize]
    unfold requestBufferInitialSize initialRequestBufferBytes
    cases body with
    | none => exact le_rfl
    | some b =>
      simp only
      split <;> omega
  unfold Manager.acquire
  split
  · exact h
  rename_i hm hacquire
  split at hacquire
  · cases hacquire
  rename_i hadmitted
  obtain rfl := Option.some.inj hacquire
  simp only [Bool.or_eq_true, decide_eq_true_eq, not_or, not_lt, not_le] at hadmitted
  obtain ⟨⟨-, hslot⟩, hroom⟩ := hadmitted
  have hnew : memoryOf (Consume.start size.toNat body) = size := by
    show ((size.toNat : ℕ) : ℤ) + copied (Consume.stored body) = size
    rw [copied_stored, add_zero, Int.toNat_of_nonneg hnonneg]
  refine ⟨?_, ?_, ?_, by simp only; omega, h.disk_le, by simp only; omega, fun j hj => ?_⟩
  · rw [Heap.total_alloc (f := memoryCharge) fun _ _ => rfl, ← h.memory]
    simp only [memoryCharge, Bool.false_eq_true, if_false, hnew]
  · rw [Heap.total_alloc (f := diskCharge) fun _ _ => rfl, ← h.disk]
    exact (add_zero _).symm
  · rw [Heap.total_alloc (f := slotCharge) fun _ _ => rfl, ← h.active]
    rfl
  · show Own read cfg ((s.uploads.alloc _).cell j)
    rw [Heap.cell_alloc]
    split
    · refine ⟨?_, fun _ => ⟨rfl, rfl⟩, fun _ text hrest => Or.inl ?_⟩
      · exact unspilled_stored (c := ⟨_, _, .done 0⟩) fun _ => rfl
      · rw [← hsize]
        exact Consume.start_sound _ _ contentLength cfg.memory_pos hrest
    · rename_i hold
      exact h.own j (lt_of_le_of_ne (Nat.lt_succ_iff.mp hj) hold)

/-- The last holder gives back what the upload holds. -/
theorem free_accounted (h : Accounted read cfg s) (hi : i < s.uploads.size)
    (hrefs : (s.uploads.cell i).refs = 0) (hfreed : (s.uploads.cell i).freed = false) :
    Accounted read cfg (s.free i) := by
  have hown := h.own i hi
  have hsettled : Settled (s.uploads.cell i).consume = true := by
    by_contra hopen
    rw [Bool.not_eq_true] at hopen
    have := (hown.held hopen).1
    omega
  have hcopied : copied (s.uploads.cell i).consume.phase = 0 := by
    unfold Settled at hsettled
    cases hphase : (s.uploads.cell i).consume.phase <;> simp only [hphase] at hsettled
    case done status => rfl
    all_goals cases hsettled
  have hmemory := h.memory
  unfold free
  refine ⟨?_, ?_, ?_, ?_, ?_, ?_, fun j hj => ?_⟩
  · rw [Heap.total_modify hi, ← h.memory]
    simp only [memoryCharge, memoryOf, hfreed, hcopied, Bool.false_eq_true, if_false, if_true]
    omega
  · rw [Heap.total_modify hi, ← h.disk]
    simp only [diskCharge, hfreed, Bool.false_eq_true, if_false, if_true, add_zero]
  · rw [Heap.total_modify hi, ← h.active]
    simp only [slotCharge, hfreed, Bool.false_eq_true, if_false, if_true, add_zero]
  · have := h.memory_le
    simp only
    omega
  · have := h.disk_le
    simp only
    omega
  · have := h.active_le
    simp only
    omega
  · simp only [Heap.cell_modify]
    split
    · refine ⟨?_, fun hopen => ?_, fun hno => absurd hno (by simp)⟩
      · have hunspilled := hown.unspilled
        unfold Unspilled at hunspilled ⊢
        exact hunspilled
      · change Settled (s.uploads.cell i).consume = false at hopen
        rw [hsettled] at hopen
        cases hopen
    · exact h.own j hj

theorem step_accounted (a : Action σ) {t : Server σ} (h : Accounted read cfg s)
    (hstep : s.step read cfg a = some t) : Accounted read cfg t := by
  cases a with
  | acquire p contentLength body =>
    obtain rfl := Option.some.inj hstep
    exact handle_accounted h p contentLength body
  | step i ok =>
    simp only [step] at hstep
    split at hstep
    · rename_i hguard
      obtain rfl := Option.some.inj hstep
      exact consumeStep_accounted h hguard.1 hguard.2 ok
    · cases hstep
  | retain i | release i =>
    simp only [step] at hstep
    split at hstep
    · rename_i hguard
      obtain rfl := Option.some.inj hstep
      have hown := h.own i hguard.1
      exact h.modify hguard.1 rfl rfl rfl
        ⟨hown.unspilled, fun hopen => absurd (hguard.2.1.symm.trans hopen) (by simp), hown.exact⟩
    · cases hstep
  | free i =>
    simp only [step] at hstep
    split at hstep
    · rename_i hguard
      obtain rfl := Option.some.inj hstep
      exact free_accounted h hguard.1 hguard.2.1 hguard.2.2
    · cases hstep
  | stopAdmission =>
    obtain rfl := Option.some.inj hstep
    exact ⟨h.memory, h.disk, h.active, h.memory_le, h.disk_le, h.active_le, h.own⟩

theorem reachable_accounted (h : (machine read cfg).Reachable s) : Accounted read cfg s := by
  refine h.invariant (P := Accounted read cfg) (fun t ht => ?_) fun t a t' _ ht hstep => step_accounted a ht hstep
  rw [show t = {} from ht]
  exact accounted_start

end Invariant

/-- Counters without a buffer to hold them are zero. -/
theorem Accounted.all_freed {read : σ → ℕ → Chunk σ} {cfg : Resources} {s : Server σ}
    (h : Accounted read cfg s) (hfreed : ∀ i < s.uploads.size, (s.uploads.cell i).freed = true) :
    s.manager.memory = 0 ∧ s.manager.disk = 0 ∧ s.manager.active = 0 := by
  rw [h.memory, h.disk, h.active]
  refine ⟨Finset.sum_eq_zero fun i hi => ?_, Finset.sum_eq_zero fun i hi => ?_,
    Finset.sum_eq_zero fun i hi => ?_⟩
  · rw [memoryCharge, if_pos (hfreed i (Finset.mem_range.mp hi))]
  · rw [diskCharge, if_pos (hfreed i (Finset.mem_range.mp hi))]
  · rw [slotCharge, if_pos (hfreed i (Finset.mem_range.mp hi))]

end Server

/-- A server with a spill directory. -/
def spooling : Resources := ⟨64, 64, 128, lit "/var/spool", by decide, by decide, by decide⟩

/-- Two uploads at once; the first is read to its end. -/
def twoUploads : List (Action Bytes) :=
  [.acquire ⟨4, 2⟩ 4 (some (lit "stat")), .acquire ⟨4, 2⟩ 5 (some (lit "statu"))] ++
    List.replicate 11 (.step 0 true)

end Statute.RequestBuffer
