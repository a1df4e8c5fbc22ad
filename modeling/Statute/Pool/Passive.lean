import Mathlib.Logic.Function.Basic
import Statute.Base.Window

/-!
# Passive health checks

`passivehealth.go`: the failures of a backend's attempts are kept as time stamps, dropped as they leave
the failure window and cut to the last `MaxFailures`, and a backend with that many is demoted.  The
stamps kept are a summary of all the failures there were, in the sense of `Summarises`, so a query at
any later time is answered as the whole log would.
-/

namespace Statute.Pool

open Statute.Base

/-- `resolved.PassiveHealthCheck`; durations in nanoseconds. -/
structure PassiveHealthCheck where
  failureWindow : ℤ
  maxFailures : ℕ
  holdDown : ℤ := 0
  recoverByProbe : Bool := false
  resetOnSuccess : Bool := false

/-- `passiveRun`, with the health marks it leaves on the backends. -/
structure PassiveRun (β : Type) where
  cfg : PassiveHealthCheck
  active : Bool := true
  failures : β → List ℤ := fun _ => []
  holds : β → Option ℤ := fun _ => none
  unhealthy : β → Bool := fun _ => false

def pruneWindow (ts : List ℤ) (cutoff : ℤ) : List ℤ := dropUpTo cutoff ts

/-- The stamps `record` keeps: those in the window and the new one, the last `MaxFailures` of them. -/
def recordStamp (cfg : PassiveHealthCheck) (ts : List ℤ) (now : ℤ) : List ℤ :=
  let kept := pruneWindow ts (now - cfg.failureWindow) ++ [now]
  if kept.length > cfg.maxFailures then kept.drop (kept.length - cfg.maxFailures) else kept

/-- `now.Before(holds[b])`; a missing entry is the zero time. -/
def held (now : ℤ) : Option ℤ → Bool
  | none => false
  | some t => decide (now < t)

namespace PassiveRun

variable {β : Type} [DecidableEq β]

def record (r : PassiveRun β) (b : β) (now : ℤ) : PassiveRun β :=
  if !r.active then r
  else
    let kept := recordStamp r.cfg (r.failures b) now
    let r := { r with failures := Function.update r.failures b kept }
    if kept.length ≥ r.cfg.maxFailures then
      if r.cfg.recoverByProbe then { r with unhealthy := Function.update r.unhealthy b true }
      else if r.cfg.holdDown > 0 && !held now (r.holds b) then
        { r with holds := Function.update r.holds b (some (now + r.cfg.holdDown)) }
      else r
    else r

def demoted (r : PassiveRun β) (b : β) (now : ℤ) : PassiveRun β × Bool :=
  if r.cfg.recoverByProbe then (r, false)
  else if r.cfg.holdDown > 0 then
    if held now (r.holds b) then (r, true)
    else ({ r with holds := Function.update r.holds b none }, false)
  else
    let kept := pruneWindow (r.failures b) (now - r.cfg.failureWindow)
    ({ r with failures := Function.update r.failures b kept },
      decide (kept.length ≥ r.cfg.maxFailures))

def success (r : PassiveRun β) (b : β) : PassiveRun β :=
  if !r.cfg.resetOnSuccess || !r.active then r
  else { r with failures := Function.update r.failures b [] }

omit [DecidableEq β] in
def stop (r : PassiveRun β) : PassiveRun β := { r with active := false }

end PassiveRun

/-- An operation on a run. -/
inductive PassiveOp (β : Type) where
  | record (b : β)
  | demoted (b : β)
  | success (b : β)
  | stop

/-- An operation and the clock when it takes place. -/
structure PassiveEvent (β : Type) where
  op : PassiveOp β
  now : ℤ

namespace PassiveRun

variable {β : Type} [DecidableEq β]

/-- The run after one operation. -/
def step (r : PassiveRun β) (e : PassiveEvent β) : PassiveRun β :=
  match e.op with
  | .record b => r.record b e.now
  | .demoted b => (r.demoted b e.now).1
  | .success b => r.success b
  | .stop => r.stop

/-- The run after a sequence of operations. -/
def run (r : PassiveRun β) (es : List (PassiveEvent β)) : PassiveRun β := es.foldl step r

end PassiveRun

/-! ### The failures there were -/

/-- What an observer notes down: every failure recorded on a backend while the run was active, since
the last success that reset it. -/
structure PassiveLog (β : Type) where
  active : Bool := true
  failures : β → List ℤ := fun _ => []

namespace PassiveLog

variable {β : Type} [DecidableEq β]

/-- One more operation; reading is no event. -/
def step (cfg : PassiveHealthCheck) (l : PassiveLog β) (e : PassiveEvent β) : PassiveLog β :=
  match e.op with
  | .record b =>
    if l.active then { l with failures := Function.update l.failures b (l.failures b ++ [e.now]) } else l
  | .demoted _ => l
  | .success b =>
    if cfg.resetOnSuccess && l.active then { l with failures := Function.update l.failures b [] } else l
  | .stop => { l with active := false }

/-- The log of a sequence of operations. -/
def ofEvents (cfg : PassiveHealthCheck) (es : List (PassiveEvent β)) : PassiveLog β :=
  es.foldl (step cfg) {}

end PassiveLog

/-- The clock readings do not decrease, from `last` on. -/
def Clocked {β : Type} : ℤ → List (PassiveEvent β) → Prop
  | _, [] => True
  | last, e :: es => last ≤ e.now ∧ Clocked e.now es

/-- How many failures of a log lie in the window that ends at `t`. -/
def windowFailures (cfg : PassiveHealthCheck) (log : List ℤ) (t : ℤ) : ℕ :=
  log.countP fun x => decide (t - cfg.failureWindow < x ∧ x ≤ t)

/-! ### The run summarises the log -/

namespace PassiveRun

variable {β : Type} [DecidableEq β] {cfg : PassiveHealthCheck} {r : PassiveRun β} {l : PassiveLog β}
  {last : ℤ}

/-- The run and the log agree, when the clock last read `last`. -/
structure Follows (cfg : PassiveHealthCheck) (last : ℤ) (r : PassiveRun β) (l : PassiveLog β) :
    Prop where
  config : r.cfg = cfg
  active : r.active = l.active
  summary : ∀ b, Summarises cfg.maxFailures (last - cfg.failureWindow) (r.failures b) (l.failures b)
  kept_past : ∀ b, ∀ x ∈ r.failures b, x ≤ last
  log_past : ∀ b, ∀ x ∈ l.failures b, x ≤ last

omit [DecidableEq β] in
theorem follows_start (cfg : PassiveHealthCheck) (last : ℤ) :
    Follows cfg last ({ cfg := cfg } : PassiveRun β) {} :=
  ⟨rfl, rfl, fun _ => .nil, fun _ _ hx => absurd hx List.not_mem_nil,
    fun _ _ hx => absurd hx List.not_mem_nil⟩

omit [DecidableEq β] in
/-- Time passes. -/
theorem Follows.wait (h : Follows cfg last r l) {now : ℤ} (hnow : last ≤ now) : Follows cfg now r l :=
  ⟨h.config, h.active, fun b => (h.summary b).mono (by omega),
    fun b x hx => (h.kept_past b x hx).trans hnow, fun b x hx => (h.log_past b x hx).trans hnow⟩

/-- New stamps for one backend, in the run and in the log. -/
theorem Follows.update (h : Follows cfg last r l) (b : β) {kept log : List ℤ}
    (hsummary : Summarises cfg.maxFailures (last - cfg.failureWindow) kept log)
    (hkept : ∀ x ∈ kept, x ≤ last) (hlog : ∀ x ∈ log, x ≤ last) :
    Follows cfg last { r with failures := Function.update r.failures b kept }
      { l with failures := Function.update l.failures b log } := by
  refine ⟨h.config, h.active, fun a => ?_, fun a => ?_, fun a => ?_⟩
  all_goals
    by_cases hab : a = b
    · subst hab
      simp only [Function.update_self]
      assumption
    · simp only [Function.update_of_ne hab]
      first
        | exact h.summary a
        | exact h.kept_past a
        | exact h.log_past a

omit [DecidableEq β] in
/-- Holds and health marks are not part of the agreement. -/
theorem Follows.congr (h : Follows cfg last r l) {r' : PassiveRun β} (hcfg : r'.cfg = r.cfg)
    (hactive : r'.active = r.active) (hfailures : r'.failures = r.failures) : Follows cfg last r' l :=
  ⟨hcfg.trans h.config, hactive.trans h.active, hfailures ▸ h.summary, hfailures ▸ h.kept_past,
    h.log_past⟩

theorem record_active (h : r.active = true) (b : β) (now : ℤ) :
    (r.record b now).cfg = r.cfg ∧ (r.record b now).active = r.active ∧
      (r.record b now).failures =
        Function.update r.failures b (recordStamp r.cfg (r.failures b) now) := by
  unfold PassiveRun.record
  rw [if_neg (by simp [h])]
  simp only
  split
  · split
    · exact ⟨rfl, rfl, rfl⟩
    · split <;> exact ⟨rfl, rfl, rfl⟩
  · exact ⟨rfl, rfl, rfl⟩

/-- The stamps `record` keeps still summarise the log. -/
theorem recordStamp_summarises {kept log : List ℤ} {now : ℤ}
    (h : Summarises cfg.maxFailures (now - cfg.failureWindow) kept log) (hpast : ∀ x ∈ kept, x ≤ now) :
    Summarises cfg.maxFailures (now - cfg.failureWindow) (recordStamp cfg kept now) (log ++ [now]) := by
  have hnew := (h.dropUpTo le_rfl).snoc fun x hx => hpast x ((List.dropWhile_sublist _).subset hx)
  unfold recordStamp
  simp only
  split
  · exact hnew.keepLast
  · exact hnew

theorem recordStamp_past {kept : List ℤ} {now : ℤ} (hpast : ∀ x ∈ kept, x ≤ now) :
    ∀ x ∈ recordStamp cfg kept now, x ≤ now := by
  have hall : ∀ x ∈ pruneWindow kept (now - cfg.failureWindow) ++ [now], x ≤ now := by
    intro x hx
    rw [List.mem_append, List.mem_singleton] at hx
    rcases hx with hx | rfl
    · exact hpast x ((List.dropWhile_sublist _).subset hx)
    · exact le_rfl
  intro x hx
  unfold recordStamp at hx
  simp only at hx
  split at hx
  · exact hall x (List.mem_of_mem_drop hx)
  · exact hall x hx

theorem Follows.record (h : Follows cfg last r l) (b : β) :
    Follows cfg last (r.record b last) (l.step cfg ⟨.record b, last⟩) := by
  unfold PassiveLog.step
  simp only
  split
  · rename_i hlog
    obtain ⟨hcfg, hsame, hfailures⟩ := record_active (h.active.trans hlog) b last
    rw [h.config] at hfailures
    have hpast : ∀ x ∈ l.failures b ++ [last], x ≤ last := by
      intro x hx
      rw [List.mem_append, List.mem_singleton] at hx
      rcases hx with hx | rfl
      · exact h.log_past b x hx
      · exact le_rfl
    have hfollows := h.update b (recordStamp_summarises (h.summary b) (h.kept_past b))
      (recordStamp_past (h.kept_past b)) hpast
    exact hfollows.congr hcfg hsame hfailures
  · rename_i hlog
    rw [← h.active] at hlog
    rw [PassiveRun.record, if_pos (by simpa using hlog)]
    exact h

theorem Follows.demoted (h : Follows cfg last r l) (b : β) :
    Follows cfg last (r.demoted b last).1 l := by
  unfold PassiveRun.demoted
  split
  · exact h
  split
  · split
    · exact h
    · exact h.congr rfl rfl rfl
  · have hkept : Summarises cfg.maxFailures (last - cfg.failureWindow)
        (pruneWindow (r.failures b) (last - r.cfg.failureWindow)) (l.failures b) := by
      rw [h.config]
      exact (h.summary b).dropUpTo le_rfl
    have hfollows := h.update b hkept
      (fun x hx => h.kept_past b x ((List.dropWhile_sublist _).subset hx)) (h.log_past b)
    rwa [Function.update_eq_self] at hfollows

theorem Follows.success (h : Follows cfg last r l) (b : β) (now : ℤ) :
    Follows cfg last (r.success b) (l.step cfg ⟨.success b, now⟩) := by
  unfold PassiveRun.success PassiveLog.step
  simp only [h.config, ← h.active]
  cases hreset : cfg.resetOnSuccess && r.active with
  | false =>
    rw [if_pos (by rw [← Bool.not_and, hreset]; rfl), if_neg (by simp)]
    exact h
  | true =>
    rw [if_neg (by simpa [Bool.and_eq_true] using hreset), if_pos rfl]
    have hfollows := h.update b .nil (fun x hx => absurd hx List.not_mem_nil)
      fun x hx => absurd hx List.not_mem_nil
    exact ⟨rfl, rfl, hfollows.summary, hfollows.kept_past, hfollows.log_past⟩

/-- **One operation** keeps the run in step with the log. -/
theorem Follows.step (h : Follows cfg last r l) {e : PassiveEvent β} (hnow : last ≤ e.now) :
    Follows cfg e.now (r.step e) (l.step cfg e) := by
  have hwait := h.wait hnow
  obtain ⟨op, now⟩ := e
  cases op with
  | record b => exact hwait.record b
  | demoted b => exact hwait.demoted b
  | success b => exact hwait.success b now
  | stop => exact ⟨hwait.config, rfl, hwait.summary, hwait.kept_past, hwait.log_past⟩

/-- **A whole run.** -/
theorem Follows.run (h : Follows cfg last r l) {es : List (PassiveEvent β)} (hclock : Clocked last es)
    {t : ℤ} (hlast : last ≤ t) (ht : ∀ e ∈ es, e.now ≤ t) :
    Follows cfg t (r.run es) (es.foldl (PassiveLog.step cfg) l) := by
  induction es generalizing r l last with
  | nil => exact h.wait hlast
  | cons e es ih =>
    exact ih (h.step hclock.1) hclock.2 (ht e List.mem_cons_self)
      fun e' he' => ht e' (List.mem_cons_of_mem e he')

/-- The answer of `demoted`, from the log. -/
theorem Follows.demoted_iff (h : Follows cfg last r l) (hhold : cfg.holdDown = 0)
    (hprobe : cfg.recoverByProbe = false) (b : β) :
    (r.demoted b last).2 = true ↔ cfg.maxFailures ≤ windowFailures cfg (l.failures b) last := by
  have hquery := (h.summary b).le_length_iff le_rfl
  have hwindow : windowFailures cfg (l.failures b) last =
      countAfter (last - cfg.failureWindow) (l.failures b) := by
    refine List.countP_congr fun x hx => ?_
    have hpast := h.log_past b x hx
    simp only [decide_eq_true_eq, and_iff_left_iff_imp]
    exact fun _ => hpast
  rw [hwindow, ← hquery]
  unfold PassiveRun.demoted
  simp only [h.config, hhold, hprobe, Bool.false_eq_true, if_false, lt_irrefl, ge_iff_le,
    decide_eq_true_eq, pruneWindow]

/-! ### Stopped runs -/

/-- A reading changes no later answer. -/
theorem demoted_demoted {t t' : ℤ} (hhold : r.cfg.holdDown = 0) (hprobe : r.cfg.recoverByProbe = false)
    (ht : t ≤ t') (b b' : β) : ((r.demoted b t).1.demoted b' t').2 = (r.demoted b' t').2 := by
  unfold PassiveRun.demoted
  simp only [hhold, hprobe, Bool.false_eq_true, if_false, lt_irrefl]
  by_cases hb : b' = b
  · subst hb
    have hcutoff : t - r.cfg.failureWindow ≤ t' - r.cfg.failureWindow := by omega
    refine decide_eq_decide.mpr ?_
    simp only [Function.update_self, pruneWindow, dropUpTo_dropUpTo hcutoff]
  · simp only [Function.update_of_ne hb]

end PassiveRun

/-- **The failure window.**  Without a hold-down and without recovery by probes, after any operations
in time order a backend is demoted at time `t` exactly when at least `MaxFailures` of its failures
since the last success that reset it lie in the window that ends at `t`.  On a stopped run `record`
and `success` change nothing, and a reading changes no later answer, though it still drops the stamps
that left the window. -/
theorem passive_window {β : Type} [DecidableEq β] (cfg : PassiveHealthCheck) (hhold : cfg.holdDown = 0)
    (hprobe : cfg.recoverByProbe = false) :
    (∀ (start : ℤ) (es : List (PassiveEvent β)) (b : β) (t : ℤ), Clocked start es → start ≤ t →
      (∀ e ∈ es, e.now ≤ t) →
      (((({ cfg := cfg } : PassiveRun β).run es).demoted b t).2 = true ↔
        cfg.maxFailures ≤ windowFailures cfg ((PassiveLog.ofEvents cfg es).failures b) t)) ∧
    ∀ r : PassiveRun β, r.cfg = cfg → r.active = false → ∀ (b : β) (t : ℤ),
      r.record b t = r ∧ r.success b = r ∧
        ∀ (b' : β) (t' : ℤ), t ≤ t' → ((r.demoted b t).1.demoted b' t').2 = (r.demoted b' t').2 := by
  constructor
  · intro start es b t hclock hstart ht
    have hfollows := (PassiveRun.follows_start cfg start).run hclock hstart ht
    exact hfollows.demoted_iff hhold hprobe b
  · intro r hcfg hstopped b t
    refine ⟨?_, ?_, fun b' t' htt => PassiveRun.demoted_demoted (hcfg ▸ hhold) (hcfg ▸ hprobe) htt b b'⟩
    · rw [PassiveRun.record, hstopped]
      rfl
    · rw [PassiveRun.success, hstopped, Bool.not_false, Bool.or_true, if_pos rfl]

/-- Two failures within ten seconds demote; the first has left the window a second later. -/
theorem passive_window_pair :
    ((({ cfg := { failureWindow := 10, maxFailures := 2 } } : PassiveRun Bool).run
        [⟨.record true, 0⟩, ⟨.record false, 3⟩, ⟨.record true, 9⟩]).demoted true 9).2 = true ∧
      windowFailures { failureWindow := 10, maxFailures := 2 } [0, 9] 10 = 1 :=
  ⟨((passive_window { failureWindow := 10, maxFailures := 2 } rfl rfl).1 0
      [⟨.record true, 0⟩, ⟨.record false, 3⟩, ⟨.record true, 9⟩] true 9 (by simp [Clocked])
      (by decide) (by simp)).mpr (by decide), by decide⟩

/-- A stopped run is still written: a reading drops the stamp that left the window. -/
theorem demoted_prunes_stopped :
    let r := ({ cfg := { failureWindow := 1, maxFailures := 1 } } : PassiveRun Unit).run
      [⟨.record (), 0⟩, ⟨.stop, 0⟩]
    r.active = false ∧ r.failures () = [0] ∧ (r.demoted () 5).1.failures () = [] :=
  ⟨rfl, rfl, rfl⟩

end Statute.Pool
