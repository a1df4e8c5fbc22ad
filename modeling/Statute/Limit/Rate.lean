import Mathlib.Algebra.Order.Floor.Ring
import Mathlib.Data.Rat.Floor
import Mathlib.Tactic.Linarith
import Statute.Limit.Buckets

/-!
# How many requests a key can have admitted

With exact token amounts the level of a key, its tokens refilled up to a given time, or the whole
capacity when it has no bucket, bounds what the key can still have admitted.  A call lowers the
caller's level by the request it admits and raises nobody's; a retired bucket was full, so its key
keeps its level when the bucket is made again.  Over any interval a key therefore gets at most the
capacity and what the interval refills.
-/

namespace Statute.Limit

open Statute.Base

/-- Token arithmetic over exact rationals. -/
def exactTokens (rate capacity : ℚ) : Tokens ℚ where
  capacity := capacity
  earn tokens elapsed := min capacity (tokens + elapsed / 10 ^ 9 * rate)
  enough tokens := decide (1 ≤ tokens)
  take tokens := tokens - 1
  full tokens := !decide (tokens < capacity)
  refillDeadline last tokens :=
    let nanos := ⌈(capacity - tokens) / rate * 10 ^ 9⌉
    last + if nanos < maxDuration then nanos else maxDuration

section Level

variable {rate capacity : ℚ}

/-- The tokens a count can have at a time: refilled since it was taken, and the whole capacity
without a count. -/
def level (rate capacity : ℚ) (a : Option (TokenCount ℚ)) (t : Time) : ℚ :=
  match a with
  | none => capacity
  | some b => min capacity (b.tokens + ((t - b.last : ℤ) : ℚ) / 10 ^ 9 * rate)

/-- A count between nothing and the capacity, taken in the past. -/
structure TokenCount.Sound (capacity : ℚ) (now : Time) (b : TokenCount ℚ) : Prop where
  nonneg : 0 ≤ b.tokens
  le : b.tokens ≤ capacity
  past : b.last ≤ now

theorem TokenCount.Sound.mono {b : TokenCount ℚ} {now later : Time} (h : b.Sound capacity now)
    (hle : now ≤ later) : b.Sound capacity later :=
  ⟨h.nonneg, h.le, h.past.trans hle⟩

theorem earned_nonneg (hrate : 0 ≤ rate) {d : ℤ} (hd : 0 ≤ d) :
    0 ≤ (d : ℚ) / 10 ^ 9 * rate := by
  have hd' : (0 : ℚ) ≤ d := by exact_mod_cast hd
  positivity

theorem earned_mono (hrate : 0 ≤ rate) {d e : ℤ} (hde : d ≤ e) :
    (d : ℚ) / 10 ^ 9 * rate ≤ (e : ℚ) / 10 ^ 9 * rate := by
  have hde' : (d : ℚ) ≤ e := by exact_mod_cast hde
  gcongr

theorem earned_add (d e : ℤ) :
    ((d + e : ℤ) : ℚ) / 10 ^ 9 * rate = (d : ℚ) / 10 ^ 9 * rate + (e : ℚ) / 10 ^ 9 * rate := by
  push_cast
  ring

theorem level_le_capacity (rate capacity : ℚ) (a : Option (TokenCount ℚ)) (t : Time) :
    level rate capacity a t ≤ capacity := by
  cases a with
  | none => exact le_rfl
  | some b => exact min_le_left _ _

theorem level_nonneg (hrate : 0 ≤ rate) (hcap : 0 ≤ capacity) {a : Option (TokenCount ℚ)}
    {t : Time} (ha : ∀ b, a = some b → b.Sound capacity t) : 0 ≤ level rate capacity a t := by
  cases a with
  | none => exact hcap
  | some b =>
    have hb := ha b rfl
    have hearned := earned_nonneg hrate (d := t - b.last) (sub_nonneg.mpr hb.past)
    exact le_min hcap (by have := hb.nonneg; linarith)

/-- Waiting refills at the rate. -/
theorem level_wait (capacity : ℚ) (hrate : 0 ≤ rate) (a : Option (TokenCount ℚ)) {t t' : Time}
    (ht : t ≤ t') :
    level rate capacity a t' ≤
      level rate capacity a t + ((t' - t : ℤ) : ℚ) / 10 ^ 9 * rate := by
  have hearned := earned_nonneg hrate (d := t' - t) (sub_nonneg.mpr ht)
  cases a with
  | none =>
    show capacity ≤ capacity + _
    linarith
  | some b =>
    show min capacity (b.tokens + _) ≤ min capacity (b.tokens + _) + _
    have hsplit : ((t' - b.last : ℤ) : ℚ) / 10 ^ 9 * rate =
        ((t - b.last : ℤ) : ℚ) / 10 ^ 9 * rate + ((t' - t : ℤ) : ℚ) / 10 ^ 9 * rate := by
      rw [← earned_add]
      congr 3
      ring
    rw [hsplit, min_add]
    refine min_le_min ?_ ?_ <;> linarith

/-! ### A refill, a request, a retirement -/

variable {b : TokenCount ℚ} {now : Time}

/-- A refill brings the count up to the clock reading. -/
theorem refill_last (h : b.last ≤ now) : ((exactTokens rate capacity).refill b now).last = now := by
  unfold Tokens.refill
  split
  · rfl
  · rename_i hnot
    exact le_antisymm h (not_lt.mp hnot)

theorem refill_sound (hrate : 0 ≤ rate) (hcap : 0 ≤ capacity) (h : b.Sound capacity now) :
    ((exactTokens rate capacity).refill b now).Sound capacity now := by
  refine ⟨?_, ?_, (refill_last h.past).le⟩
  · unfold Tokens.refill
    split
    · have hearned := earned_nonneg hrate (d := min (now - b.last) maxDuration)
        (le_min (sub_nonneg.mpr h.past) (by decide))
      exact le_min hcap (by have := h.nonneg; linarith)
    · exact h.nonneg
  · unfold Tokens.refill
    split
    · exact min_le_left _ _
    · exact h.le

/-- A refill, whose elapsed time saturates, never raises a level. -/
theorem level_refill (capacity : ℚ) (hrate : 0 ≤ rate) (b : TokenCount ℚ) (now t : Time) :
    level rate capacity (some ((exactTokens rate capacity).refill b now)) t ≤
      level rate capacity (some b) t := by
  unfold Tokens.refill
  split
  · have hsplit : ((t - b.last : ℤ) : ℚ) / 10 ^ 9 * rate =
        ((now - b.last : ℤ) : ℚ) / 10 ^ 9 * rate + ((t - now : ℤ) : ℚ) / 10 ^ 9 * rate := by
      rw [← earned_add]
      congr 3
      ring
    have hsat := earned_mono hrate (min_le_left (now - b.last) maxDuration)
    show min capacity (min capacity (b.tokens + _) + _) ≤ min capacity (b.tokens + _)
    refine le_min (min_le_left _ _) ((min_le_right _ _).trans ?_)
    have hinner := min_le_right capacity
      (b.tokens + ((min (now - b.last) maxDuration : ℤ) : ℚ) / 10 ^ 9 * rate)
    rw [hsplit]
    linarith
  · exact le_rfl

/-- Right after a refill the level is the tokens. -/
theorem level_refill_now (h : b.Sound capacity now) (hrate : 0 ≤ rate) (hcap : 0 ≤ capacity) :
    level rate capacity (some ((exactTokens rate capacity).refill b now)) now =
      ((exactTokens rate capacity).refill b now).tokens := by
  show min capacity (_ + ((now - _ : ℤ) : ℚ) / 10 ^ 9 * rate) = _
  rw [refill_last h.past, sub_self, Int.cast_zero, zero_div, zero_mul, add_zero]
  exact min_eq_right (refill_sound hrate hcap h).le

/-- **A request.**  Counting a request keeps the count sound, raises no level, and lowers the
present one by the request it admits. -/
theorem use_level (hrate : 0 ≤ rate) (hcap : 0 ≤ capacity) (h : b.Sound capacity now) :
    let r := (exactTokens rate capacity).accounting.use b now
    r.1.Sound capacity now ∧
      (∀ t, now ≤ t → level rate capacity (some r.1) t ≤ level rate capacity (some b) t) ∧
      level rate capacity (some r.1) now + (if r.2 = 0 then 1 else 0) ≤
        level rate capacity (some b) now := by
  intro r
  have hsound := refill_sound hrate hcap h
  have hnow := level_refill_now h hrate hcap
  have hlevel := fun t (_ : now ≤ t) => level_refill capacity hrate b now t
  by_cases henough : (exactTokens rate capacity).enough
      ((exactTokens rate capacity).refill b now).tokens = true
  · have hr : r = (⟨((exactTokens rate capacity).refill b now).tokens - 1,
        ((exactTokens rate capacity).refill b now).last⟩, 0) := by
      simp only [r, Tokens.accounting, henough, if_true]
      rfl
    have hone : 1 ≤ ((exactTokens rate capacity).refill b now).tokens := of_decide_eq_true henough
    rw [hr]
    have hlower : ∀ t, level rate capacity
        (some ⟨((exactTokens rate capacity).refill b now).tokens - 1,
          ((exactTokens rate capacity).refill b now).last⟩) t ≤
        level rate capacity (some ((exactTokens rate capacity).refill b now)) t := fun t =>
      min_le_min le_rfl (by linarith)
    refine ⟨⟨by show (0 : ℚ) ≤ _ - 1; linarith, by show _ - 1 ≤ capacity; linarith [hsound.le],
      hsound.past⟩, fun t ht => (hlower t).trans (hlevel t ht), ?_⟩
    have hpresent := hlevel now le_rfl
    rw [hnow] at hpresent
    refine le_trans ?_ hpresent
    show min capacity (_ - 1 + ((now - _ : ℤ) : ℚ) / 10 ^ 9 * rate) + 1 ≤ _
    rw [refill_last h.past, sub_self, Int.cast_zero, zero_div, zero_mul, add_zero]
    have := min_le_right capacity (((exactTokens rate capacity).refill b now).tokens - 1)
    linarith
  · have hr : r = ((exactTokens rate capacity).refill b now, tooManyRequests) := by
      simp only [r, Tokens.accounting, if_neg henough]
    rw [hr]
    refine ⟨hsound, hlevel, ?_⟩
    rw [if_neg (show tooManyRequests ≠ 0 by decide), add_zero]
    exact hlevel now le_rfl

/-- **A retirement.**  Looking at a count again raises no level, and a full count has the level of a
key without one. -/
theorem settle_level (hrate : 0 ≤ rate) (hcap : 0 ≤ capacity) (h : b.Sound capacity now) :
    let r := (exactTokens rate capacity).accounting.settle b now
    r.1.Sound capacity now ∧
      (∀ t, now ≤ t → level rate capacity (some r.1) t ≤ level rate capacity (some b) t) ∧
      (r.2 = true → ∀ t, now ≤ t → level rate capacity none t ≤ level rate capacity (some b) t) := by
  intro r
  refine ⟨refill_sound hrate hcap h, fun t _ => level_refill _ hrate b now t, fun hfull t ht => ?_⟩
  have hge : capacity ≤ ((exactTokens rate capacity).refill b now).tokens := by
    have hnot : (!decide (((exactTokens rate capacity).refill b now).tokens < capacity)) = true :=
      hfull
    simpa using hnot
  refine le_trans ?_ (level_refill _ hrate b now t)
  show capacity ≤ min capacity _
  refine le_min le_rfl ?_
  have hearned := earned_nonneg hrate
    (d := t - ((exactTokens rate capacity).refill b now).last)
    (by rw [refill_last h.past]; exact sub_nonneg.mpr ht)
  linarith

end Level

/-! ### One call -/

section Run

variable {κ : Type} [DecidableEq κ] {rate capacity : ℚ}

def SoundView (capacity : ℚ) (now : Time) (v : κ → Option (TokenCount ℚ)) : Prop :=
  ∀ d b, v d = some b → b.Sound capacity now

/-- Aging the counts raises no level. -/
theorem aged_level (hrate : 0 ≤ rate) (hcap : 0 ≤ capacity) {now : Time}
    {v v' : κ → Option (TokenCount ℚ)} (hv : SoundView capacity now v)
    (hage : BucketStore.Aged (exactTokens rate capacity).accounting now v v') :
    SoundView capacity now v' ∧
      ∀ d t, now ≤ t → level rate capacity (v' d) t ≤ level rate capacity (v d) t := by
  rcases hage with rfl | ⟨k, x, hk, hcase⟩
  · exact ⟨hv, fun _ _ _ => le_rfl⟩
  obtain ⟨hsound, hlevel, hfull⟩ := settle_level hrate hcap (hv k x hk)
  rcases hcase with rfl | ⟨hempty, rfl⟩
  · refine ⟨fun d b hd => ?_, fun d t ht => ?_⟩ <;> by_cases hdk : d = k
    · rw [hdk, Function.update_self, Option.some.injEq] at hd
      exact hd ▸ hsound
    · rw [Function.update_of_ne hdk] at hd
      exact hv d b hd
    · rw [hdk, Function.update_self, hk]
      exact hlevel t ht
    · rw [Function.update_of_ne hdk]
  · refine ⟨fun d b hd => ?_, fun d t ht => ?_⟩ <;> by_cases hdk : d = k
    · rw [hdk, Function.update_self] at hd
      cases hd
    · rw [Function.update_of_ne hdk] at hd
      exact hv d b hd
    · rw [hdk, Function.update_self, hk]
      exact hfull hempty t ht
    · rw [Function.update_of_ne hdk]

/-- What a run of calls keeps: the index, no idle times, sound counts. -/
structure Running (capacity : ℚ) (now : Time) (s : BucketStore κ (TokenCount ℚ)) : Prop where
  indexed : Indexed s
  timeless : s.Timeless
  limit_pos : 0 < s.limit
  sound : SoundView capacity now s.view

/-- **One call on the levels.** -/
theorem Running.allow (digest : Bytes → κ) (hrate : 0 ≤ rate) (hcap : 0 ≤ capacity)
    {s : BucketStore κ (TokenCount ℚ)} {last now : Time} (h : Running capacity last s)
    (hclock : last ≤ now) (key : Bytes) :
    let r := allow digest (exactTokens rate capacity) s key now
    Running capacity now r.1 ∧
      (∀ d t, now ≤ t → level rate capacity (r.1.view d) t ≤ level rate capacity (s.view d) t) ∧
      level rate capacity (r.1.view (digest key)) now + (if r.2 = 0 then 1 else 0) ≤
        level rate capacity (s.view (digest key)) now := by
  intro r
  have hview : SoundView capacity now s.view := fun d b hd => (h.sound d b hd).mono hclock
  obtain ⟨hindexed, hlimit⟩ := BucketStore.access_indexed (exactTokens rate capacity).accounting
    h.indexed h.limit_pos (digest key) now {}
  obtain ⟨htimeless, v, haged, hcase⟩ := BucketStore.access_view
    (exactTokens rate capacity).accounting h.indexed h.timeless h.limit_pos (digest key) now
  obtain ⟨hsound, hlevel⟩ := aged_level hrate hcap hview haged
  rcases hcase with ⟨hnone, hv⟩ | ⟨x, hx, hsome, hv⟩
  · have hstatus : r.2 = serviceUnavailable := congrArg (fun o => o.getD serviceUnavailable) hnone
    refine ⟨⟨hindexed, htimeless, hlimit ▸ h.limit_pos, ?_⟩, fun d t ht => ?_, ?_⟩
    · exact (congrArg (SoundView capacity now) hv).mpr hsound
    · exact (congrArg (fun v => level rate capacity (v d) t) hv).le.trans (hlevel d t ht)
    · rw [hstatus, if_neg (by decide), add_zero]
      exact (congrArg (fun v => level rate capacity (v (digest key)) now) hv).le.trans
        (hlevel _ now le_rfl)
  · have hstatus : r.2 = ((exactTokens rate capacity).accounting.use x now).2 :=
      congrArg (fun o => o.getD serviceUnavailable) hsome
    -- A fresh count has the level of the key without one.
    have hxv : x.Sound capacity now ∧ ∀ t, now ≤ t →
        level rate capacity (some x) t ≤ level rate capacity (v (digest key)) t := by
      rcases hx with hx | ⟨hx, rfl⟩
      · exact ⟨hsound _ x hx, fun t _ => by rw [hx]⟩
      · exact ⟨⟨hcap, le_rfl, le_rfl⟩, fun t _ => by rw [hx]; exact min_le_left _ _⟩
    obtain ⟨huse, hdown, hspend⟩ := use_level hrate hcap hxv.1
    have hrv : r.1.view = Function.update v (digest key)
        (some ((exactTokens rate capacity).accounting.use x now).1) := hv
    refine ⟨⟨hindexed, htimeless, hlimit ▸ h.limit_pos, ?_⟩, fun d t ht => ?_, ?_⟩
    · show SoundView capacity now r.1.view
      rw [hrv]
      intro d b hd
      by_cases hdk : d = digest key
      · rw [hdk, Function.update_self, Option.some.injEq] at hd
        exact hd ▸ huse
      · rw [Function.update_of_ne hdk] at hd
        exact hsound d b hd
    · rw [hrv]
      by_cases hdk : d = digest key
      · rw [hdk, Function.update_self]
        exact (hdown t ht).trans ((hxv.2 t ht).trans (hlevel _ t ht))
      · rw [Function.update_of_ne hdk]
        exact hlevel d t ht
    · rw [hrv, Function.update_self, hstatus]
      exact hspend.trans ((hxv.2 now le_rfl).trans (hlevel _ now le_rfl))

/-! ### Whole runs -/

/-- How many of the calls with this key and a time of the interval were admitted. -/
def admitted (key : Bytes) (t₁ t₂ : Time) (calls : List Call) (results : List ℕ) : ℕ :=
  (calls.zip results).countP fun x =>
    decide (x.1.key = key ∧ t₁ ≤ x.1.now ∧ x.1.now ≤ t₂ ∧ x.2 = 0)

theorem admitted_cons (key : Bytes) (t₁ t₂ : Time) (c : Call) (calls : List Call) (status : ℕ)
    (results : List ℕ) :
    admitted key t₁ t₂ (c :: calls) (status :: results) =
      admitted key t₁ t₂ calls results +
        if c.key = key ∧ t₁ ≤ c.now ∧ c.now ≤ t₂ ∧ status = 0 then 1 else 0 := by
  rw [admitted, List.zip_cons_cons, List.countP_cons]
  simp only [decide_eq_true_eq]
  rfl

/-- Nothing is admitted in an interval that is over. -/
theorem admitted_eq_zero (key : Bytes) (t₁ : Time) {t₂ : Time} {calls : List Call}
    (hlate : ∀ c ∈ calls, t₂ < c.now) (results : List ℕ) :
    admitted key t₁ t₂ calls results = 0 := by
  rw [admitted, List.countP_eq_zero]
  intro x hx hcounted
  have hin := of_decide_eq_true hcounted
  exact absurd hin.2.2.1 (not_le.mpr (hlate x.1 (List.of_mem_zip hx).1))

/-- What a key can have admitted in an interval, from the level it starts the interval with. -/
theorem admitted_le_level (digest : Bytes → κ) (hrate : 0 ≤ rate) (hcap : 0 ≤ capacity)
    (key : Bytes) (t₁ t₂ : Time) {calls : List Call} {s : BucketStore κ (TokenCount ℚ)} {last : Time}
    (h : Running capacity last s) (hstart : ∀ c ∈ calls, last ≤ c.now)
    (hclock : calls.Pairwise fun a b => a.now ≤ b.now) (hopen : max last t₁ ≤ t₂) :
    (admitted key t₁ t₂ calls
        (runCalls (allow digest (exactTokens rate capacity)) calls s).2 : ℚ) ≤
      level rate capacity (s.view (digest key)) (max last t₁) +
        ((t₂ - max last t₁ : ℤ) : ℚ) / 10 ^ 9 * rate := by
  induction calls generalizing s last with
  | nil =>
    have hlevel := level_nonneg hrate hcap (a := s.view (digest key)) (t := max last t₁)
      fun b hb => (h.sound _ b hb).mono (le_max_left _ _)
    have hearned := earned_nonneg hrate (d := t₂ - max last t₁) (sub_nonneg.mpr hopen)
    have hzero : admitted key t₁ t₂ [] (runCalls (allow digest (exactTokens rate capacity)) [] s).2 =
        0 := rfl
    rw [hzero, Nat.cast_zero]
    linarith
  | cons c calls ih =>
    have hnow := hstart c List.mem_cons_self
    rw [List.pairwise_cons] at hclock
    obtain ⟨hrun, hlevel, hspend⟩ := h.allow digest hrate hcap hnow c.key
    rw [runCalls, admitted_cons]
    by_cases hover : t₂ < c.now
    · -- The interval is over before the first call.
      have hlate : ∀ c' ∈ calls, t₂ < c'.now := fun c' hc' => hover.trans_le (hclock.1 c' hc')
      have hlevel₀ := level_nonneg hrate hcap (a := s.view (digest key)) (t := max last t₁)
        fun b hb => (h.sound _ b hb).mono (le_max_left _ _)
      have hearned := earned_nonneg hrate (d := t₂ - max last t₁) (sub_nonneg.mpr hopen)
      rw [admitted_eq_zero key t₁ hlate, if_neg fun hin => absurd hin.2.2.1 (not_le.mpr hover),
        Nat.add_zero, Nat.cast_zero]
      linarith
    have hend := not_lt.mp hover
    by_cases hearly : c.now < t₁
    · -- Before the interval a call can only lower the level it starts with.
      have hmax : max c.now t₁ = t₁ := max_eq_right hearly.le
      have hmax' : max last t₁ = t₁ := max_eq_right (hnow.trans hearly.le)
      have hrest := ih hrun (fun c' hc' => hclock.1 c' hc') hclock.2 (by rw [hmax]; rwa [hmax'] at hopen)
      rw [hmax] at hrest
      rw [hmax', if_neg fun hin => absurd hin.2.1 (not_le.mpr hearly), Nat.add_zero]
      have hlow := hlevel (digest key) t₁ hearly.le
      linarith
    · have hin := not_lt.mp hearly
      have hmax : max c.now t₁ = c.now := max_eq_left hin
      have hrest := ih hrun (fun c' hc' => hclock.1 c' hc') hclock.2 (by rw [hmax]; exact hend)
      rw [hmax] at hrest
      have hgrow := level_wait capacity hrate (s.view (digest key)) (max_le hnow hin)
      have hsplit : ((t₂ - max last t₁ : ℤ) : ℚ) / 10 ^ 9 * rate =
          ((c.now - max last t₁ : ℤ) : ℚ) / 10 ^ 9 * rate +
            ((t₂ - c.now : ℤ) : ℚ) / 10 ^ 9 * rate := by
        rw [← earned_add]
        congr 3
        ring
      -- The call's own key pays for it; a request of another key costs this one nothing.
      have hpaid : level rate capacity
          ((allow digest (exactTokens rate capacity) s c.key c.now).1.view (digest key)) c.now +
          (if c.key = key ∧ t₁ ≤ c.now ∧ c.now ≤ t₂ ∧
            (allow digest (exactTokens rate capacity) s c.key c.now).2 = 0 then 1 else 0) ≤
          level rate capacity (s.view (digest key)) c.now := by
        split
        · rename_i hcounted
          rw [if_pos hcounted.2.2.2] at hspend
          rw [hcounted.1] at hspend ⊢
          exact hspend
        · rw [add_zero]
          exact hlevel (digest key) c.now le_rfl
      rw [hsplit, Nat.cast_add, Nat.cast_ite, Nat.cast_one, Nat.cast_zero]
      linarith

end Run

/-! ### The two results -/

/-- After any sequence of operations that keep the index, the index holds. -/
theorem runCalls_invariant {S ν : Type} {op : S → Bytes → Time → S × ν} {I : S → Prop}
    (hstep : ∀ s key now, I s → I (op s key now).1) (calls : List Call) {s : S} (h : I s) :
    I (runCalls op calls s).1 := by
  induction calls generalizing s with
  | nil => exact h
  | cons c calls ih => exact ih (hstep s c.key c.now h)

theorem newBucketStore_indexed {κ σ : Type} [Inhabited κ] [Inhabited σ] (limit : ℤ) :
    Indexed (newBucketStore limit : BucketStore κ σ) ∧
      0 < (newBucketStore limit : BucketStore κ σ).limit := by
  have hnone : ∀ p, ¬ (newBucketStore limit : BucketStore κ σ).expiry.Mem p := by
    rintro p ⟨i, hi, -⟩
    exact absurd hi (Nat.not_lt_zero i)
  refine ⟨⟨Slots.valid_empty _, fun p hp => absurd hp (hnone p), fun d p => ?_, rfl,
    Nat.zero_le _⟩, ?_⟩
  · exact ⟨fun h => absurd h (by simp [newBucketStore]), fun h => absurd h.1 (hnone p)⟩
  · show 0 < if limit ≤ 0 then defaultRateLimitMaxBuckets else limit.toNat
    split
    · decide
    · omega

/-- Some reading is no later than the interval and every call. -/
theorem exists_start (t : Time) (calls : List Call) :
    ∃ last, last ≤ t ∧ ∀ c ∈ calls, last ≤ c.now := by
  induction calls with
  | nil => exact ⟨t, le_rfl, by simp⟩
  | cons c calls ih =>
    obtain ⟨last, hle, hall⟩ := ih
    refine ⟨min last c.now, (min_le_left _ _).trans hle, fun c' hc' => ?_⟩
    rcases List.mem_cons.mp hc' with rfl | hc'
    · exact min_le_right _ _
    · exact (min_le_left _ _).trans (hall c' hc')

/-- **The rate-limit store.**  After any sequence of `allowWithPolicy` calls, in any token
arithmetic, and after any sequence of `reserve` calls, with any limiters, the map and the heap hold
the same buckets, each at its recorded position, ordered by `fullAt`, at most the limit of them.
With exact amounts, the default policy and a clock that does not run backwards, a key has at most
the capacity and the interval's refill admitted in any interval, whatever was retired and made again
in between. -/
theorem rate_limit_store {κ : Type} [DecidableEq κ] [Inhabited κ] (digest : Bytes → κ) (limit : ℤ) :
    (∀ (τ : Type) [Inhabited τ] (T : Tokens τ) (cfg : Policy) (calls : List Call),
      Indexed (runCalls (fun s key now => allowWithPolicy digest T s key now cfg) calls
        (newBucketStore limit)).1) ∧
    (∀ (σ : Type) [Inhabited σ] (L : Limiters σ) (maxDelay : ℤ) (cfg : Policy) (calls : List Call),
      Indexed (runCalls (fun s key now => reserve digest L maxDelay s key now cfg) calls
        (newBucketStore limit)).1) ∧
    ∀ (rate capacity : ℚ), 0 ≤ rate → 0 ≤ capacity → ∀ (calls : List Call),
      (calls.Pairwise fun a b => a.now ≤ b.now) → ∀ (key : Bytes) (t₁ t₂ : Time), t₁ ≤ t₂ →
      (admitted key t₁ t₂ calls (runCalls (allow digest (exactTokens rate capacity)) calls
          (newBucketStore limit)).2 : ℚ) ≤
        capacity + rate * (((t₂ - t₁ : ℤ) : ℚ) / 10 ^ 9) := by
  refine ⟨fun τ _ T cfg calls => ?_, fun σ _ L maxDelay cfg calls => ?_,
    fun rate capacity hrate hcap calls hclock key t₁ t₂ hle => ?_⟩
  · refine (runCalls_invariant (I := fun s => Indexed s ∧ 0 < s.limit) (fun s key now h => ?_) calls
      (newBucketStore_indexed limit)).1
    obtain ⟨hindexed, hlimit⟩ := BucketStore.access_indexed T.accounting h.1 h.2 (digest key) now cfg
    exact ⟨hindexed, hlimit.symm ▸ h.2⟩
  · refine (runCalls_invariant (I := fun s => Indexed s ∧ 0 < s.limit) (fun s key now h => ?_) calls
      (newBucketStore_indexed limit)).1
    obtain ⟨hindexed, hlimit⟩ := BucketStore.access_indexed (L.accounting maxDelay) h.1 h.2
      (digest key) now cfg
    have hstate : (reserve digest L maxDelay s key now cfg).1 =
        (s.access (L.accounting maxDelay) (digest key) now cfg).1 := by
      unfold reserve
      simp only
      split <;> rfl
    rw [hstate]
    exact ⟨hindexed, hlimit.symm ▸ h.2⟩
  · -- Start counting no later than the interval and the first reading.
    obtain ⟨hindexed, hlimit⟩ := newBucketStore_indexed (κ := κ) (σ := TokenCount ℚ) limit
    obtain ⟨last, hlast, hstart⟩ := exists_start t₁ calls
    have hrun : Running capacity last (newBucketStore limit : BucketStore κ (TokenCount ℚ)) :=
      ⟨hindexed, fun p hp => absurd hp.choose_spec.1 (Nat.not_lt_zero _), hlimit,
        fun d b hd => absurd hd (by simp [BucketStore.view, newBucketStore])⟩
    have hmax : max last t₁ = t₁ := max_eq_right hlast
    have hbound := admitted_le_level digest hrate hcap key t₁ t₂ hrun hstart hclock
      (by rw [hmax]; exact hle)
    rw [hmax] at hbound
    have hcapacity := level_le_capacity rate capacity
      ((newBucketStore limit : BucketStore κ (TokenCount ℚ)).view (digest key)) t₁
    linarith

/-- Two slots and one token a second up to two: a client takes its burst, two others retire its
bucket an hour later, and it takes a full burst again. -/
theorem rate_limit_store_retired :
    let call (key : String) (seconds : ℤ) : Call := ⟨lit key, seconds * 10 ^ 9⟩
    let calls := [call "a" 1, call "a" 1, call "a" 1, call "b" 3600, call "c" 3601, call "a" 3602,
      call "a" 3602, call "a" 3602]
    (calls.Pairwise fun a b => a.now ≤ b.now) ∧
      Indexed (runCalls (fun s key now => allowWithPolicy id (exactTokens 1 2) s key now {}) calls
        (newBucketStore 2)).1 ∧
      (admitted (lit "a") (3602 * 10 ^ 9) (3602 * 10 ^ 9) calls
        (runCalls (allow id (exactTokens 1 2)) calls (newBucketStore 2)).2 : ℚ) ≤ 2 := by
  intro call calls
  have hclock : calls.Pairwise fun a b => a.now ≤ b.now := by decide
  have hstore := rate_limit_store (κ := Bytes) id 2
  refine ⟨hclock, hstore.1 ℚ (exactTokens 1 2) {} calls, ?_⟩
  have hbound := hstore.2.2 1 2 (by norm_num) (by norm_num) calls hclock (lit "a") (3602 * 10 ^ 9)
    (3602 * 10 ^ 9) le_rfl
  rw [sub_self, Int.cast_zero, zero_div, mul_zero, add_zero] at hbound
  exact hbound

end Statute.Limit
