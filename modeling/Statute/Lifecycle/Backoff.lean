import Mathlib.Algebra.Order.Ring.Int
import Statute.Base.Bytes

/-!
# The backoff of a failed activation

`workloadBackoff` (`workload.go`) doubles a duration once for every failure after the first, as long as it
is below the cap, and returns the smaller of it and the cap.  The test comes before the doubling, so a
duration below the cap may be doubled past the largest `int64`.  The policies are those that
`resolveDockerWorkloads` (`resolve.go`) accepts.

* `backoffLoop_double` — doublings that stay below the cap are exact;
* `backoff_exact_iff` — the backoff is exact, positive and monotone for a policy if and only if no doubling
  of the base lands between half the range of `int64` and the cap.
-/

namespace Statute.Lifecycle

open Statute.Base

/-! ### Policies -/

inductive ReadinessMode where
  | auto
  | dockerHealth
  | tcp
  | http
deriving DecidableEq

structure WorkloadPolicy where
  idleAfter : Bytes := []
  startTimeout : Bytes := []
  readyTimeout : Bytes := []
  backoffBase : Bytes := []
  backoffCap : Bytes := []
  mode : ReadinessMode := .auto
  path : Bytes := []

/-- `resolved.Workload`: durations in nanoseconds. -/
structure ResolvedWorkload where
  idleAfter : Int64
  startTimeout : Int64
  readyTimeout : Int64
  backoffBase : Int64
  backoffCap : Int64
  mode : ReadinessMode := .auto
  path : Bytes := []
  base_pos : 0 < backoffBase
  base_le_cap : backoffBase ≤ backoffCap

/-- The errors of `resolveDockerWorkloads`, with the data their texts are made from. -/
inductive PolicyError where
  | duration (label : Bytes)
  | notPositive (label value : Bytes)
  | capBelowBase (cap base : Int64)
  | readinessPath (path : Bytes)

/-- One round of the loop over the fields; `duration` is `parse.Duration`. -/
def resolveDuration (duration : Bytes → Option Int64) (label value : Bytes) (fallback : Int64) :
    Except PolicyError { d : Int64 // 0 < d } :=
  match if value = [] then some fallback else duration value with
  | none => .error (.duration label)
  | some d => if h : 0 < d then .ok ⟨d, h⟩ else .error (.notPositive label value)

/-- The body of `resolveDockerWorkloads` for one policy. -/
def resolveWorkload (duration : Bytes → Option Int64) (policy : WorkloadPolicy) :
    Except PolicyError ResolvedWorkload := do
  let idleAfter ← resolveDuration duration (lit "idle_after") policy.idleAfter 900000000000
  let startTimeout ← resolveDuration duration (lit "start_timeout") policy.startTimeout 30000000000
  let readyTimeout ← resolveDuration duration (lit "ready_timeout") policy.readyTimeout 120000000000
  let base ← resolveDuration duration (lit "backoff_base") policy.backoffBase 5000000000
  let cap ← resolveDuration duration (lit "backoff_cap") policy.backoffCap 300000000000
  if h : cap.1 < base.1 then throw (.capBelowBase cap.1 base.1)
  else if policy.mode = .http ∧ hasPrefix policy.path (lit "/") = false then throw (.readinessPath policy.path)
  else
    pure { idleAfter := idleAfter.1, startTimeout := startTimeout.1, readyTimeout := readyTimeout.1,
           backoffBase := base.1, backoffCap := cap.1, mode := policy.mode, path := policy.path,
           base_pos := base.2, base_le_cap := Int64.not_lt.mp h }

/-- `resolveDockerWorkloads`: the policies in the order of their names, and the name an error is about. -/
def resolveDockerWorkloads (duration : Bytes → Option Int64) (policies : List (Bytes × WorkloadPolicy)) :
    Except (Bytes × PolicyError) (List (Bytes × ResolvedWorkload)) :=
  policies.mapM fun p => ((resolveWorkload duration p.2).mapError fun e => (p.1, e)).map fun w => (p.1, w)

/-! ### The backoff -/

/-- The loop of `workloadBackoff`, with the number of rounds that the failure count leaves. -/
def backoffLoop (cap : Int64) : ℕ → Int64 → Int64
  | 0, backoff => backoff
  | rounds + 1, backoff => if backoff < cap then backoffLoop cap rounds (backoff * 2) else backoff

def workloadBackoff (policy : ResolvedWorkload) (failures : ℕ) : Int64 :=
  min (backoffLoop policy.backoffCap (failures - 1) policy.backoffBase) policy.backoffCap

theorem toInt_double {b : Int64} (hmin : 0 ≤ b.toInt) (hmax : b.toInt < 2 ^ 62) :
    (b * 2).toInt = b.toInt * 2 := by
  rw [Int64.toInt_mul]
  show Int.bmod (b.toInt * 2) (2 ^ 64) = b.toInt * 2
  apply Int.bmod_eq_of_le_mul_two
  · omega
  · omega

/-- A duration in the upper half of the positive range doubles to a negative one. -/
theorem toInt_double_overflow {b : Int64} (hmin : 2 ^ 62 ≤ b.toInt) : (b * 2).toInt < 0 := by
  have hmax := Int64.toInt_lt b
  rw [Int64.toInt_mul]
  show Int.bmod (b.toInt * 2) (2 ^ 64) < 0
  rw [← Int.sub_bmod_right, Int.bmod_eq_of_le_mul_two]
  · push_cast; omega
  · push_cast; omega
  · push_cast; omega

theorem toInt_min (a b : Int64) : (min a b).toInt = min a.toInt b.toInt := by
  rw [show min a b = if a ≤ b then a else b from rfl]
  split
  · rename_i h
    rw [min_eq_left (Int64.le_iff_toInt_le.mp h)]
  · rename_i h
    rw [min_eq_right (Int64.le_iff_toInt_le.mp (Int64.le_of_lt (Int64.not_le.mp h)))]

/-- Doublings that stay below the cap are exact. -/
theorem backoffLoop_double {cap : Int64} (k rounds : ℕ) {b : Int64} (hb : 0 < b.toInt)
    (hcap : b.toInt * 2 ^ k < cap.toInt) :
    ∃ b' : Int64, b'.toInt = b.toInt * 2 ^ k ∧ backoffLoop cap (k + rounds) b = backoffLoop cap rounds b' := by
  induction k generalizing b with
  | zero => exact ⟨b, by rw [pow_zero, mul_one], by rw [Nat.zero_add]⟩
  | succ k ih =>
    have hpow : (1 : ℤ) ≤ 2 ^ k := one_le_pow₀ (by decide)
    have hexact : b.toInt * 2 ^ (k + 1) = b.toInt * 2 * 2 ^ k := by rw [pow_succ]; ring
    have hle : b.toInt * 2 ≤ b.toInt * 2 * 2 ^ k := le_mul_of_one_le_right (by omega) hpow
    have hrange := Int64.toInt_lt cap
    rw [hexact] at hcap
    have hdouble : (b * 2).toInt = b.toInt * 2 := toInt_double (by omega) (by omega)
    obtain ⟨b', hb', hloop⟩ := ih (b := b * 2) (by omega) (by rw [hdouble]; exact hcap)
    refine ⟨b', by rw [hb', hdouble, hexact], ?_⟩
    rw [Nat.succ_add_eq_add_succ, Nat.add_succ, backoffLoop, if_pos (Int64.lt_iff_toInt_lt.mpr (by omega)), hloop]

/-- Where no doubling below the cap overflows, the loop gives the exact power, up to the cap. -/
theorem backoffLoop_exact {cap : Int64} {rounds : ℕ} {b : Int64} (hb : 0 < b.toInt)
    (hfits : ∀ k : ℕ, ¬ (2 ^ 62 ≤ b.toInt * 2 ^ k ∧ b.toInt * 2 ^ k < cap.toInt)) :
    min (backoffLoop cap rounds b).toInt cap.toInt = min (b.toInt * 2 ^ rounds) cap.toInt := by
  induction rounds generalizing b with
  | zero => rw [backoffLoop, pow_zero, mul_one]
  | succ rounds ih =>
    have hexact : b.toInt * 2 ^ (rounds + 1) = b.toInt * 2 * 2 ^ rounds := by rw [pow_succ]; ring
    rw [backoffLoop]
    split
    · rename_i hlt
      have hlt := Int64.lt_iff_toInt_lt.mp hlt
      have hhalf : b.toInt < 2 ^ 62 := by
        by_contra hge
        exact hfits 0 ⟨by rw [pow_zero, mul_one]; omega, by rw [pow_zero, mul_one]; exact hlt⟩
      have hdouble := toInt_double (by omega) hhalf
      rw [ih (by omega) ?_, hdouble, hexact]
      intro k
      rw [hdouble, show b.toInt * 2 * 2 ^ k = b.toInt * 2 ^ (k + 1) by rw [pow_succ]; ring]
      exact hfits (k + 1)
    · rename_i hge
      have hge := Int64.le_iff_toInt_le.mp (Int64.not_lt.mp hge)
      have hpow : (1 : ℤ) ≤ 2 ^ (rounds + 1) := one_le_pow₀ (by decide)
      rw [min_eq_right hge, min_eq_right (hge.trans (le_mul_of_one_le_right (by omega) hpow))]

/-! ### The exact backoff -/

/-- `min(BackoffBase * 2^(n-1), BackoffCap)`, over the integers. -/
def exactBackoff (policy : ResolvedWorkload) (n : ℕ) : ℤ :=
  min (policy.backoffBase.toInt * 2 ^ (n - 1)) policy.backoffCap.toInt

variable (policy : ResolvedWorkload)

theorem ResolvedWorkload.toInt_base_pos : 0 < policy.backoffBase.toInt :=
  Int64.lt_iff_toInt_lt.mp policy.base_pos

theorem exactBackoff_pos (n : ℕ) : 0 < exactBackoff policy n := by
  have hbase := policy.toInt_base_pos
  have hcap := Int64.le_iff_toInt_le.mp policy.base_le_cap
  exact lt_min (by positivity) (by omega)

theorem exactBackoff_mono {n m : ℕ} (h : n ≤ m) :
    exactBackoff policy n ≤ exactBackoff policy m := by
  have hbase := policy.toInt_base_pos
  apply min_le_min_right
  apply mul_le_mul_of_nonneg_left _ hbase.le
  exact pow_le_pow_right₀ (by decide) (by omega)

/-- **Exactness of the backoff.**  For a policy the backoff is the exact minimum at every failure count, and
so positive and monotone, if and only if no doubling of the base lands between `2^62` and the cap. -/
theorem backoff_exact_iff (policy : ResolvedWorkload) :
    (∀ n, 1 ≤ n → (workloadBackoff policy n).toInt = exactBackoff policy n ∧ 0 < workloadBackoff policy n ∧
      ∀ m, n ≤ m → workloadBackoff policy n ≤ workloadBackoff policy m) ↔
    ∀ k : ℕ, ¬ (2 ^ 62 ≤ policy.backoffBase.toInt * 2 ^ k ∧
      policy.backoffBase.toInt * 2 ^ k < policy.backoffCap.toInt) := by
  constructor
  · intro h k hk
    -- after these doublings the next one overflows
    obtain ⟨b, hb, hloop⟩ := backoffLoop_double k 1 policy.toInt_base_pos hk.2
    have hnegative := toInt_double_overflow (hb.symm ▸ hk.1)
    have hrun : workloadBackoff policy (k + 2) = min (b * 2) policy.backoffCap := by
      rw [workloadBackoff, show k + 2 - 1 = k + 1 from rfl, hloop, backoffLoop,
        if_pos (Int64.lt_iff_toInt_lt.mpr (hb.symm ▸ hk.2)), backoffLoop]
    have hpos := Int64.lt_iff_toInt_lt.mp (h (k + 2) (by omega)).2.1
    rw [hrun, toInt_min] at hpos
    have hle := min_le_left (b * 2).toInt policy.backoffCap.toInt
    rw [Int64.toInt_zero] at hpos
    omega
  · intro hfits
    have hexact : ∀ n, (workloadBackoff policy n).toInt = exactBackoff policy n := by
      intro n
      rw [workloadBackoff, toInt_min]
      exact backoffLoop_exact policy.toInt_base_pos hfits
    intro n _
    refine ⟨hexact n, ?_, ?_⟩
    · apply Int64.lt_iff_toInt_lt.mpr
      rw [hexact n]
      exact exactBackoff_pos policy n
    · intro m hm
      apply Int64.le_iff_toInt_le.mpr
      rw [hexact n, hexact m]
      exact exactBackoff_mono policy hm

/-- The policy of the defaults. -/
def defaultWorkload : ResolvedWorkload where
  idleAfter := 900000000000
  startTimeout := 30000000000
  readyTimeout := 120000000000
  backoffBase := 5000000000
  backoffCap := 300000000000
  base_pos := by decide
  base_le_cap := by decide

/-- The default base under the longest cap in whole hours, `2562047h`. -/
def cappedLate : ResolvedWorkload where
  idleAfter := 900000000000
  startTimeout := 30000000000
  readyTimeout := 120000000000
  backoffBase := 5000000000
  backoffCap := 9223369200000000000
  base_pos := by decide
  base_le_cap := by decide

theorem backoff_exact_default : (workloadBackoff defaultWorkload 7).toInt = exactBackoff defaultWorkload 7 ∧
    exactBackoff defaultWorkload 7 = 300000000000 := by
  have hcap : defaultWorkload.backoffCap.toInt = 300000000000 := by decide
  refine ⟨((backoff_exact_iff defaultWorkload).mpr ?_ 7 (by omega)).1, by decide⟩
  intro k hk
  rw [hcap] at hk
  omega

/-- The thirty-second failure opens a window that ends long before it begins. -/
theorem backoff_negative : (workloadBackoff cappedLate 32).toInt = -7709325833709551616 ∧
    exactBackoff cappedLate 32 = 9223369200000000000 := by
  decide +kernel

end Statute.Lifecycle
