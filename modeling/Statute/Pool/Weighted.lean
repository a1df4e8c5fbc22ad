import Mathlib.Data.Int.ModEq
import Mathlib.Data.List.Nodup
import Statute.Base.Apportion

/-!
# Smooth weighted round robin

`weightedPicker` keeps a counter per backend.  A pick adds every candidate's weight to its counter,
returns the first candidate of greatest counter and takes the candidates' total weight off that
counter.  The counters are machine integers, so the exact fairness of a period is the fairness of
`Apportions` as long as no counter overflows; the sum of the counters is zero in machine
arithmetic whatever the candidate lists are.
-/

namespace Statute.Pool

open Statute.Base

variable {ι : Type} [DecidableEq ι]

variable (weight : ι → Int64) (B : Finset ι) (current : ι → Int64) {c : List ι}

/-- The weight of a backend as `pick` reads it. -/
def effectiveWeight (s : ι) : Int64 :=
  if weight s ≤ 0 then 1 else weight s

/-- What the loop of `pick` carries from candidate to candidate. -/
structure Scan (ι : Type) where
  current : ι → Int64
  total : Int64
  best : Option ι

/-- One round of the loop of `pick`. -/
def Scan.visit (a : Scan ι) (s : ι) : Scan ι :=
  let w := effectiveWeight weight s
  let current := Function.update a.current s (a.current s + w)
  { current := current
    total := a.total + w
    best :=
      match a.best with
      | none => some s
      | some b => if current b < current s then some s else some b }

/-- The loop of `pick`. -/
def scan (c : List ι) : Scan ι :=
  c.foldl (Scan.visit weight) ⟨current, 0, none⟩

/-- `weightedPicker.pick`: the backend it returns and the counters it leaves.  A backend the map
does not hold counts zero. -/
def pick (c : List ι) (current : ι → Int64) : Option ι × (ι → Int64) :=
  let a := scan weight current c
  match a.best with
  | none => (none, a.current)
  | some b => (some b, Function.update a.current b (a.current b - a.total))

/-- The counters after picking from each of the lists in turn. -/
def pickAll (lists : List (List ι)) (current : ι → Int64) : ι → Int64 :=
  lists.foldl (fun current c => (pick weight c current).2) current

/-- The counters after `n` picks from one list, from an all-zero state. -/
def counters (weight : ι → Int64) (c : List ι) : ℕ → ι → Int64
  | 0 => fun _ => 0
  | n + 1 => (pick weight c (counters weight c n)).2

def picked (c : List ι) (n : ℕ) : Option ι :=
  (pick weight c (counters weight c n)).1

/-- The total weight of a list of candidates, as an unbounded integer. -/
def totalWeight (c : List ι) : ℤ :=
  (c.map fun s => (effectiveWeight weight s).toInt).sum

omit [DecidableEq ι] in
theorem effectiveWeight_pos (s : ι) : 0 < (effectiveWeight weight s).toInt := by
  by_cases h : weight s ≤ 0
  · rw [effectiveWeight, if_pos h]
    decide
  · rw [effectiveWeight, if_neg h]
    rw [Int64.le_iff_toInt_le, Int64.toInt_zero] at h
    omega

/-! ### The loop -/

theorem scan_append (c : List ι) (s : ι) :
    scan weight current (c ++ [s]) = (scan weight current c).visit weight s := by
  simp only [scan, List.foldl_append, List.foldl_cons, List.foldl_nil]

/-- Between distinct candidates every counter has grown by its own weight. -/
theorem scan_current (hc : c.Nodup) (i : ι) : (scan weight current c).current i =
      if i ∈ c then current i + effectiveWeight weight i else current i := by
  induction c using List.reverseRecOn with
  | nil => simp [scan]
  | append_singleton c s ih =>
    have hsplit := List.nodup_append.mp hc
    have hs : s ∉ c := fun hmem => hsplit.2.2 s hmem s (by simp) rfl
    rw [scan_append, Scan.visit]
    by_cases his : i = s
    · subst his
      simp [ih hsplit.1, hs]
    · simp [ih hsplit.1, his]

theorem toInt_add_of_fits {a b : Int64} (hlow : -2 ^ 63 ≤ a.toInt + b.toInt)
    (hhigh : a.toInt + b.toInt < 2 ^ 63) : (a + b).toInt = a.toInt + b.toInt := by
  rw [Int64.toInt_add]
  exact Int.bmod_eq_of_le (by omega) (by omega)

theorem toInt_sub_of_fits {a b : Int64} (hlow : -2 ^ 63 ≤ a.toInt - b.toInt)
    (hhigh : a.toInt - b.toInt < 2 ^ 63) : (a - b).toInt = a.toInt - b.toInt := by
  rw [Int64.toInt_sub]
  exact Int.bmod_eq_of_le (by omega) (by omega)

omit [DecidableEq ι] in
theorem totalWeight_append (c : List ι) (s : ι) :
    totalWeight weight (c ++ [s]) = totalWeight weight c + (effectiveWeight weight s).toInt := by
  simp [totalWeight]

omit [DecidableEq ι] in
theorem totalWeight_nonneg (c : List ι) : 0 ≤ totalWeight weight c := by
  refine List.sum_nonneg fun w hw => ?_
  obtain ⟨s, _, rfl⟩ := List.mem_map.mp hw
  exact (effectiveWeight_pos weight s).le

theorem scan_total (hfit : totalWeight weight c < 2 ^ 63) :
    (scan weight current c).total.toInt = totalWeight weight c := by
  induction c using List.reverseRecOn with
  | nil => rfl
  | append_singleton c s ih =>
    rw [totalWeight_append] at hfit ⊢
    have hw := effectiveWeight_pos weight s
    have hc := totalWeight_nonneg weight c
    have htotal := ih (by omega)
    rw [scan_append, Scan.visit]
    show ((scan weight current c).total + effectiveWeight weight s).toInt = _
    rw [toInt_add_of_fits (by omega) (by omega), htotal]

/-- The loop keeps the first candidate of greatest counter. -/
theorem scan_best (hc : c.Nodup) (hne : c ≠ []) : ∃ b ∈ c, (scan weight current c).best = some b ∧
      ∀ i ∈ c, (scan weight current c).current i ≤ (scan weight current c).current b := by
  induction c using List.reverseRecOn with
  | nil => exact absurd rfl hne
  | append_singleton c s ih =>
    have hsplit := List.nodup_append.mp hc
    have hs : s ∉ c := fun hmem => hsplit.2.2 s hmem s (by simp) rfl
    rw [scan_append]
    -- The counters of the earlier candidates are not touched by the last round.
    have hkeep : ∀ i ∈ c, ((scan weight current c).visit weight s).current i =
        (scan weight current c).current i := fun i hi =>
      Function.update_of_ne (fun his : i = s => hs (his ▸ hi)) _ _
    by_cases hnil : c = []
    · subst hnil
      exact ⟨s, by simp, rfl, by simp⟩
    obtain ⟨b, hb, hbest, hmax⟩ := ih hsplit.1 hnil
    have hvisit : ((scan weight current c).visit weight s).best =
        if ((scan weight current c).visit weight s).current b <
          ((scan weight current c).visit weight s).current s then some s else some b := by
      simp only [Scan.visit, hbest]
    by_cases hlt : ((scan weight current c).visit weight s).current b <
        ((scan weight current c).visit weight s).current s
    · refine ⟨s, by simp, by rw [hvisit, if_pos hlt], fun i hi => ?_⟩
      rcases List.mem_append.mp hi with hi | hi
      · rw [hkeep i hi]
        rw [hkeep b hb] at hlt
        exact Int64.le_trans (hmax i hi) (Int64.le_of_lt hlt)
      · rw [List.mem_singleton.mp hi]
        exact Int64.le_refl _
    · refine ⟨b, by simp [hb], by rw [hvisit, if_neg hlt], fun i hi => ?_⟩
      rcases List.mem_append.mp hi with hi | hi
      · rw [hkeep i hi, hkeep b hb]
        exact hmax i hi
      · rw [List.mem_singleton.mp hi]
        exact Int64.not_lt.mp hlt

/-! ### One pick, as a round of the apportionment -/

theorem sum_toFinset_weight (hc : c.Nodup) :
    ∑ i ∈ c.toFinset, (effectiveWeight weight i).toInt = totalWeight weight c :=
  List.sum_toFinset _ hc

/-- A pick within the machine's range charges the round to a candidate of greatest counter. -/
theorem pick_charges (hc : c.Nodup) (hne : c ≠ [])
    (hfit : c.length * totalWeight weight c < 2 ^ 63) {current : ι → Int64}
    (hbal : Balanced c.toFinset (fun i => (effectiveWeight weight i).toInt)
      fun i => (current i).toInt) :
    ∃ b ∈ c, (pick weight c current).1 = some b ∧
      (∀ i ∈ c, (current i).toInt + (effectiveWeight weight i).toInt ≤
        (current b).toInt + (effectiveWeight weight b).toInt) ∧
      (∀ i ∈ c, ((pick weight c current).2 i).toInt =
        charge c.toFinset (fun i => (effectiveWeight weight i).toInt)
          (fun i => (current i).toInt) b i) ∧
      ∀ i ∉ c, (pick weight c current).2 i = current i := by
  have hpos : ∀ i ∈ c.toFinset, 0 < (effectiveWeight weight i).toInt :=
    fun i _ => effectiveWeight_pos weight i
  have hlen : 0 < c.length := List.length_pos_of_ne_nil hne
  have htotal : totalWeight weight c < 2 ^ 63 := by
    have hnonneg := totalWeight_nonneg weight c
    nlinarith
  -- A counter with its weight lies between minus the total and the count times the total.
  have hrange : ∀ i ∈ c, -totalWeight weight c < (current i).toInt ∧
      (current i).toInt + (effectiveWeight weight i).toInt ≤ c.length * totalWeight weight c := by
    intro i hi
    have hgt := hbal.gt i (List.mem_toFinset.mpr hi)
    have hle := hbal.le hpos (List.mem_toFinset.mpr hi)
    rw [List.toFinset_card_of_nodup hc, sum_toFinset_weight weight hc] at hle
    rw [sum_toFinset_weight weight hc] at hgt
    exact ⟨hgt, hle⟩
  have hsum : ∀ i ∈ c, (current i + effectiveWeight weight i).toInt =
      (current i).toInt + (effectiveWeight weight i).toInt := by
    intro i hi
    obtain ⟨hgt, hle⟩ := hrange i hi
    have hw := effectiveWeight_pos weight i
    exact toInt_add_of_fits (by omega) (by omega)
  obtain ⟨b, hb, hbest, hmax⟩ := scan_best weight current hc hne
  have hfirst : (pick weight c current).1 = some b := by
    simp only [pick, hbest]
  have hsecond : (pick weight c current).2 = Function.update (scan weight current c).current b
      ((scan weight current c).current b - (scan weight current c).total) := by
    simp only [pick, hbest]
  have hgreatest : ∀ i ∈ c, (current i).toInt + (effectiveWeight weight i).toInt ≤
      (current b).toInt + (effectiveWeight weight b).toInt := by
    intro i hi
    have h := hmax i hi
    rw [scan_current weight current hc, scan_current weight current hc, if_pos hi, if_pos hb,
      Int64.le_iff_toInt_le, hsum i hi, hsum b hb] at h
    exact h
  refine ⟨b, hb, hfirst, hgreatest, fun i hi => ?_, fun i hi => ?_⟩
  · rw [hsecond, charge, sum_toFinset_weight weight hc]
    by_cases hib : i = b
    · subst hib
      obtain ⟨hgt, hle⟩ := hrange i hi
      have htop := hbal.greatest_pos hpos (List.mem_toFinset.mpr hi)
        fun j hj => hgreatest j (List.mem_toFinset.mp hj)
      have hscan := scan_total weight current htotal
      have hi' := hsum i hi
      have hnonneg := totalWeight_nonneg weight c
      rw [if_pos rfl, Function.update_self, scan_current weight current hc, if_pos hi,
        toInt_sub_of_fits (by omega) (by omega), hi', hscan]
    · rw [if_neg hib, Function.update_of_ne hib, scan_current weight current hc, if_pos hi,
        hsum i hi, sub_zero]
  · have hib : i ≠ b := fun hib => hi (hib ▸ hb)
    rw [hsecond, Function.update_of_ne hib, scan_current weight current hc, if_neg hi]

/-! ### Picking from one list -/

section Fixed

variable (weight : ι → Int64) {c : List ι}

theorem counters_balanced (hc : c.Nodup) (hne : c ≠ [])
    (hfit : c.length * totalWeight weight c < 2 ^ 63) (n : ℕ) :
    Balanced c.toFinset (fun i => (effectiveWeight weight i).toInt)
      (fun i => (counters weight c n i).toInt) ∧ ∀ i ∉ c, counters weight c n i = 0 := by
  have hpos : ∀ i ∈ c.toFinset, 0 < (effectiveWeight weight i).toInt :=
    fun i _ => effectiveWeight_pos weight i
  induction n with
  | zero =>
    refine ⟨Balanced.zero ?_ hpos, fun _ _ => rfl⟩
    exact List.toFinset_nonempty_iff c |>.mpr hne
  | succ n ih =>
    obtain ⟨b, hb, -, hmax, hnext, hkeep⟩ := pick_charges weight hc hne hfit ih.1
    have hcharge := ih.1.charge hpos (List.mem_toFinset.mpr hb)
      fun i hi => hmax i (List.mem_toFinset.mp hi)
    have heq : ∀ i ∈ c.toFinset, (counters weight c (n + 1) i).toInt =
        charge c.toFinset (fun i => (effectiveWeight weight i).toInt)
          (fun i => (counters weight c n i).toInt) b i :=
      fun i hi => hnext i (List.mem_toFinset.mp hi)
    refine ⟨⟨(Finset.sum_congr rfl heq).trans hcharge.sum, fun i hi => ?_⟩, fun i hi => ?_⟩
    · rw [heq i hi]
      exact hcharge.gt i hi
    · exact (hkeep i hi).trans (ih.2 i hi)

theorem counters_apportion (hc : c.Nodup) (hne : c ≠ [])
    (hfit : c.length * totalWeight weight c < 2 ^ 63) :
    ∃ choice : ℕ → ι, (∀ n, picked weight c n = some (choice n)) ∧
      Apportions c.toFinset (fun i => (effectiveWeight weight i).toInt) choice
        (fun n i => (counters weight c n i).toInt) := by
  have hstep := fun n => pick_charges weight hc hne hfit (counters_balanced weight hc hne hfit n).1
  choose choice hmem hpicked hmax hnext _ using hstep
  refine ⟨choice, hpicked, ⟨fun i _ => effectiveWeight_pos weight i, fun _ _ => rfl,
    fun n => List.mem_toFinset.mpr (hmem n), fun n i hi => hmax n i (List.mem_toFinset.mp hi),
    fun n i hi => hnext n i (List.mem_toFinset.mp hi), fun a b heq => ?_⟩⟩
  have hsame : counters weight c a = counters weight c b := by
    funext i
    by_cases hi : i ∈ c
    · exact Int64.toInt_inj.mp (heq i (List.mem_toFinset.mpr hi))
    · rw [(counters_balanced weight hc hne hfit a).2 i hi,
        (counters_balanced weight hc hne hfit b).2 i hi]
  have := hpicked a
  rw [hsame, hpicked b] at this
  exact (Option.some.inj this).symm

end Fixed

/-! ### Changing candidate lists -/

theorem toInt_add_modEq (a b : Int64) : (a + b).toInt ≡ a.toInt + b.toInt [ZMOD 2 ^ 64] := by
  rw [Int64.toInt_add]
  exact Int.bmod_emod

theorem toInt_sub_modEq (a b : Int64) : (a - b).toInt ≡ a.toInt - b.toInt [ZMOD 2 ^ 64] := by
  rw [Int64.toInt_sub]
  exact Int.bmod_emod

/-- What overwriting one counter does to the sum of all of them. -/
theorem sum_update {s : ι} (hs : s ∈ B) (v : Int64) :
    ∑ i ∈ B, (Function.update current s v i).toInt =
      ∑ i ∈ B, (current i).toInt + (v.toInt - (current s).toInt) := by
  rw [← Finset.add_sum_erase B _ hs, ← Finset.add_sum_erase B (fun i => (current i).toInt) hs,
    Function.update_self]
  have hrest : ∑ i ∈ B.erase s, (Function.update current s v i).toInt =
      ∑ i ∈ B.erase s, (current i).toInt :=
    Finset.sum_congr rfl fun i hi => by rw [Function.update_of_ne (Finset.ne_of_mem_erase hi)]
  omega

/-- The loop adds the total to the counters' sum, repeated candidates included. -/
theorem sum_scan (hB : ∀ s ∈ c, s ∈ B) : ∑ i ∈ B, ((scan weight current c).current i).toInt ≡
      ∑ i ∈ B, (current i).toInt + (scan weight current c).total.toInt [ZMOD 2 ^ 64] := by
  induction c using List.reverseRecOn with
  | nil => simp [scan]
  | append_singleton c s ih =>
    have hc : ∀ i ∈ c, i ∈ B := fun i hi => hB i (List.mem_append_left [s] hi)
    have hstep := ih hc
    have hcounter := toInt_add_modEq ((scan weight current c).current s) (effectiveWeight weight s)
    have htotal := toInt_add_modEq (scan weight current c).total (effectiveWeight weight s)
    rw [scan_append, Scan.visit, sum_update B _ (hB s (by simp))]
    simp only [Int.ModEq] at hstep hcounter htotal ⊢
    omega

theorem best_mem_of_scan {b : ι} (hbest : (scan weight current c).best = some b) : b ∈ c := by
  induction c using List.reverseRecOn generalizing b with
  | nil => exact absurd hbest (by simp [scan])
  | append_singleton c s ih =>
    rw [scan_append, Scan.visit] at hbest
    cases hprev : (scan weight current c).best with
    | none =>
      simp only [hprev, Option.some.injEq] at hbest
      simp [← hbest]
    | some b' =>
      simp only [hprev] at hbest
      split at hbest
      · simp [← Option.some.inj hbest]
      · simp [← Option.some.inj hbest, ih hprev]

theorem scan_none (hbest : (scan weight current c).best = none) : c = [] := by
  induction c using List.reverseRecOn with
  | nil => rfl
  | append_singleton c s _ =>
    rw [scan_append, Scan.visit] at hbest
    cases hprev : (scan weight current c).best with
    | none => simp [hprev] at hbest
    | some b' =>
      simp only [hprev] at hbest
      split at hbest <;> cases hbest

/-- A pick keeps the sum of the counters in machine arithmetic. -/
theorem sum_pick (hB : ∀ s ∈ c, s ∈ B) :
    ∑ i ∈ B, ((pick weight c current).2 i).toInt ≡ ∑ i ∈ B, (current i).toInt [ZMOD 2 ^ 64] := by
  cases hbest : (scan weight current c).best with
  | none =>
    have hnil := scan_none weight current hbest
    subst hnil
    rfl
  | some b =>
    have hsum := sum_scan weight B current hB
    have hcharge := toInt_sub_modEq ((scan weight current c).current b)
      (scan weight current c).total
    have hb : b ∈ B := hB b (best_mem_of_scan weight current hbest)
    simp only [pick, hbest]
    rw [sum_update B _ hb]
    simp only [Int.ModEq] at hsum hcharge ⊢
    omega

theorem sum_pickAll (lists : List (List ι))
    (current : ι → Int64) (hB : ∀ c ∈ lists, ∀ s ∈ c, s ∈ B) :
    ∑ i ∈ B, (pickAll weight lists current i).toInt ≡
      ∑ i ∈ B, (current i).toInt [ZMOD 2 ^ 64] := by
  induction lists generalizing current with
  | nil => rfl
  | cons c lists ih =>
    exact (ih _ fun d hd => hB d (by simp [hd])).trans (sum_pick weight B current (hB c (by simp)))

omit [DecidableEq ι] in
/-- Counters of moderate size cannot sum to a multiple of `2 ^ 64` other than zero. -/
theorem sum_eq_zero_of_small {B : Finset ι} {f : ι → ℤ} (hmod : ∑ i ∈ B, f i ≡ 0 [ZMOD 2 ^ 64])
    (hsmall : ∀ i ∈ B, B.card * |f i| < 2 ^ 64) : ∑ i ∈ B, f i = 0 := by
  rcases B.eq_empty_or_nonempty with hempty | hne
  · simp [hempty]
  have hcard : (0 : ℤ) < B.card := by exact_mod_cast hne.card_pos
  have hbound : B.card * |∑ i ∈ B, f i| < B.card * 2 ^ 64 := by
    calc B.card * |∑ i ∈ B, f i| ≤ B.card * ∑ i ∈ B, |f i| :=
          mul_le_mul_of_nonneg_left (Finset.abs_sum_le_sum_abs f B) hcard.le
      _ = ∑ i ∈ B, B.card * |f i| := Finset.mul_sum B _ _
      _ < ∑ _i ∈ B, (2 : ℤ) ^ 64 := Finset.sum_lt_sum_of_nonempty hne hsmall
      _ = B.card * 2 ^ 64 := by rw [Finset.sum_const, nsmul_eq_mul]
  have habs : |∑ i ∈ B, f i| < 2 ^ 64 := lt_of_mul_lt_mul_left hbound hcard.le
  exact Int.eq_zero_of_abs_lt_dvd (Int.modEq_zero_iff_dvd.mp hmod) habs

/-! ### Fairness -/

/-- **Weighted picks are exactly fair.**  As long as the number of candidates times their total
weight `W` fits a machine integer, any `W` consecutive picks from a list of distinct backends
select every backend exactly its weight in times and bring the counters back to what they were,
which is zero for the blocks counted from the start.  With any lists between the picks the
counters sum to zero in machine arithmetic, hence to zero unless they have grown out of
proportion. -/
theorem weighted_picks_fair (weight : ι → Int64) :
    (∀ c : List ι, c ≠ [] → c.Nodup → c.length * totalWeight weight c < 2 ^ 63 →
      (∀ k, ∀ s ∈ c, (turns (picked weight c) (some s) k (totalWeight weight c).toNat : ℤ) =
        (effectiveWeight weight s).toInt) ∧
      (∀ k, counters weight c (k + (totalWeight weight c).toNat) = counters weight c k) ∧
      ∀ m : ℕ, counters weight c (m * (totalWeight weight c).toNat) = fun _ => 0) ∧
    ∀ (lists : List (List ι)) (B : Finset ι), (∀ c ∈ lists, ∀ s ∈ c, s ∈ B) →
      ∑ s ∈ B, (pickAll weight lists (fun _ => 0) s).toInt ≡ 0 [ZMOD 2 ^ 64] ∧
      ((∀ s ∈ B, B.card * |(pickAll weight lists (fun _ => 0) s).toInt| < 2 ^ 64) →
        ∑ s ∈ B, (pickAll weight lists (fun _ => 0) s).toInt = 0) := by
  refine ⟨fun c hne hc hfit => ?_, fun lists B hB => ?_⟩
  · obtain ⟨choice, hchoice, happ⟩ := counters_apportion weight hc hne hfit
    have hn : ((totalWeight weight c).toNat : ℤ) =
        ∑ i ∈ c.toFinset, (effectiveWeight weight i).toInt := by
      rw [sum_toFinset_weight weight hc, Int.toNat_of_nonneg (totalWeight_nonneg weight c)]
    have hturns : ∀ s a n, turns (picked weight c) (some s) a n = turns choice s a n := by
      intro s a n
      simp only [turns, hchoice, Option.some.injEq]
    have hperiod : ∀ k, counters weight c (k + (totalWeight weight c).toNat) =
        counters weight c k := by
      intro k
      funext i
      by_cases hi : i ∈ c
      · exact Int64.toInt_inj.mp (happ.credit_add_period hn k i (List.mem_toFinset.mpr hi))
      · rw [(counters_balanced weight hc hne hfit _).2 i hi,
          (counters_balanced weight hc hne hfit k).2 i hi]
    refine ⟨fun k s hs => ?_, hperiod, fun m => ?_⟩
    · rw [hturns]
      exact happ.turns_eq hn k (List.mem_toFinset.mpr hs)
    · induction m with
      | zero => rw [zero_mul]; rfl
      | succ m ih => rw [add_one_mul, hperiod, ih]
  · have hmod : ∑ s ∈ B, (pickAll weight lists (fun _ => 0) s).toInt ≡ 0 [ZMOD 2 ^ 64] := by
      have hsum := sum_pickAll weight B lists (fun _ => 0) hB
      simpa using hsum
    exact ⟨hmod, sum_eq_zero_of_small hmod⟩

/-- Weights 5, 1 and 1: seven picks from any point on select the heavy backend five times, and the
counters are zero after every seventh pick. -/
theorem weighted_picks_fair_five_one_one :
    turns (picked (fun i : Fin 3 => if i = 0 then 5 else 1) [0, 1, 2]) (some 0) 3 7 = 5 ∧
      counters (fun i : Fin 3 => if i = 0 then 5 else 1) [0, 1, 2] (4 * 7) = fun _ => 0 := by
  have hfair := (weighted_picks_fair (fun i : Fin 3 => if i = 0 then 5 else 1)).1 [0, 1, 2]
    (by decide) (by decide) (by decide)
  have hturns := hfair.1 3 0 (by decide)
  exact ⟨Int.natCast_inj.mp hturns, hfair.2.2 4⟩

/-! ### Overflow -/

/-- The greatest weight a label can give. -/
def heaviest {ι : Type} (_ : ι) : Int64 := Int64.maxValue

/-- Two backends of greatest weight: from the second pick on the counters alternate between two
states that are not zero. -/
theorem counters_heaviest (n : ℕ) :
    counters heaviest [false, true] (2 * n + 2) = fun b => if b then -2 else 2 := by
  have hround : (pick heaviest [false, true] (pick heaviest [false, true]
      (fun b => if b then -2 else 2)).2).2 = fun b => if b then -2 else 2 := by
    funext b
    cases b <;> decide
  induction n with
  | zero =>
    funext b
    cases b <;> decide
  | succ n ih =>
    rw [show 2 * (n + 1) + 2 = 2 * n + 2 + 1 + 1 by ring, counters, counters, ih, hround]

/-- Without the bound the block of `W` picks does not return to zero, and one pick among three
such backends leaves counters whose integer sum is `2 ^ 64`. -/
theorem weighted_picks_overflow :
    (totalWeight heaviest [false, true] = 2 ^ 64 - 2 ∧
      counters heaviest [false, true] (totalWeight heaviest [false, true]).toNat ≠ fun _ => 0) ∧
    ∑ i : Fin 3, (pickAll heaviest [[(0 : Fin 3), 1, 2]] (fun _ => 0) i).toInt = 2 ^ 64 := by
  have htotal : totalWeight heaviest [false, true] = 2 ^ 64 - 2 := by decide
  refine ⟨⟨htotal, fun hzero => ?_⟩, by decide⟩
  have hlast := counters_heaviest (2 ^ 63 - 2)
  have hcount : (totalWeight heaviest [false, true]).toNat = 2 * (2 ^ 63 - 2) + 2 := by
    rw [htotal]
    rfl
  rw [hcount, hlast] at hzero
  exact absurd (congrFun hzero false) (by decide)

end Statute.Pool
