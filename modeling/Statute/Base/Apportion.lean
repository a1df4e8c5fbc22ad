import Mathlib.Algebra.BigOperators.Group.Finset.Basic
import Mathlib.Algebra.BigOperators.Ring.Finset
import Mathlib.Algebra.Order.BigOperators.Group.Finset
import Mathlib.Algebra.Order.Ring.Int
import Mathlib.Tactic.Linarith
import Mathlib.Tactic.Ring

/-!
# Apportioning turns by running credit

Every party of a finite set earns its weight each round, and the party with the most credit takes
the turn and pays the whole round's earnings.  Credits then sum to zero and stay above minus the
total weight, whatever breaks the ties; so after as many rounds as the total weight every party
has taken exactly its weight in turns and all credits are zero again.
-/

namespace Statute.Base

variable {ι : Type}

/-- Credits that sum to zero, none of which has fallen by a whole round's earnings. -/
structure Balanced (B : Finset ι) (w c : ι → ℤ) : Prop where
  sum : ∑ i ∈ B, c i = 0
  gt : ∀ i ∈ B, -∑ j ∈ B, w j < c i

namespace Balanced

variable {B : Finset ι} {w c : ι → ℤ}

theorem zero (hne : B.Nonempty) (hpos : ∀ i ∈ B, 0 < w i) : Balanced B w fun _ => 0 :=
  ⟨Finset.sum_const_zero, fun _ _ => neg_lt_zero.mpr (Finset.sum_pos hpos hne)⟩

/-- The greatest credit of a round is positive: the credits sum to the round's earnings. -/
theorem greatest_pos (h : Balanced B w c) (hpos : ∀ i ∈ B, 0 < w i) {b : ι} (hb : b ∈ B)
    (hmax : ∀ i ∈ B, c i + w i ≤ c b + w b) : 0 < c b + w b := by
  by_contra hle
  have hsum : ∑ i ∈ B, (c i + w i) ≤ 0 :=
    Finset.sum_nonpos fun i hi => (hmax i hi).trans (not_lt.mp hle)
  rw [Finset.sum_add_distrib, h.sum, zero_add] at hsum
  exact absurd (Finset.sum_pos hpos ⟨b, hb⟩) (not_lt.mpr hsum)

end Balanced

variable [DecidableEq ι]

/-- The credits after a round in which `b` took the turn. -/
def charge (B : Finset ι) (w c : ι → ℤ) (b i : ι) : ℤ :=
  c i + w i - if i = b then ∑ j ∈ B, w j else 0

theorem sum_charge {B : Finset ι} (w c : ι → ℤ) {b : ι} (hb : b ∈ B) :
    ∑ i ∈ B, charge B w c b i = ∑ i ∈ B, c i := by
  simp only [charge, Finset.sum_sub_distrib, Finset.sum_add_distrib]
  rw [Finset.sum_ite_eq' B b (fun _ => ∑ j ∈ B, w j), if_pos hb]
  ring

namespace Balanced

variable {B : Finset ι} {w c : ι → ℤ}

theorem charge (h : Balanced B w c) (hpos : ∀ i ∈ B, 0 < w i) {b : ι} (hb : b ∈ B)
    (hmax : ∀ i ∈ B, c i + w i ≤ c b + w b) : Balanced B w (charge B w c b) := by
  refine ⟨(sum_charge w c hb).trans h.sum, fun i hi => ?_⟩
  show -∑ j ∈ B, w j < c i + w i - if i = b then ∑ j ∈ B, w j else 0
  by_cases hib : i = b
  · have htop := h.greatest_pos hpos hb hmax
    rw [if_pos hib, hib]
    omega
  · have hlow := h.gt i hi
    have hw := hpos i hi
    rw [if_neg hib]
    omega

/-- The others owe less than a round's earnings each, which bounds what one can be owed. -/
theorem le (h : Balanced B w c) (hpos : ∀ i ∈ B, 0 < w i) {i : ι} (hi : i ∈ B) :
    c i + w i ≤ B.card * ∑ j ∈ B, w j := by
  have hrest : (B.card - 1 : ℤ) * -∑ j ∈ B, w j ≤ ∑ j ∈ B.erase i, c j := by
    have hcard : ((B.erase i).card : ℤ) = B.card - 1 := by
      rw [Finset.card_erase_of_mem hi, Nat.cast_sub (Finset.card_pos.mpr ⟨i, hi⟩), Nat.cast_one]
    rw [← hcard, ← nsmul_eq_mul]
    exact Finset.card_nsmul_le_sum _ _ _ fun j hj => (h.gt j (Finset.mem_of_mem_erase hj)).le
  have hsplit : c i + ∑ j ∈ B.erase i, c j = 0 :=
    (Finset.add_sum_erase B c hi).trans h.sum
  have hw : w i ≤ ∑ j ∈ B, w j :=
    Finset.single_le_sum (fun j hj => (hpos j hj).le) hi
  linarith [mul_neg (B.card - 1 : ℤ) (∑ j ∈ B, w j), sub_one_mul (B.card : ℤ) (∑ j ∈ B, w j)]

end Balanced

/-! ### Whole runs -/

/-- How often `i` takes one of the `n` turns from turn `a` on. -/
def turns (pick : ℕ → ι) (i : ι) (a n : ℕ) : ℕ :=
  ((Finset.range n).filter fun j => pick (a + j) = i).card

@[simp] theorem turns_zero (pick : ℕ → ι) (i : ι) (a : ℕ) : turns pick i a 0 = 0 := rfl

theorem turns_succ (pick : ℕ → ι) (i : ι) (a n : ℕ) :
    turns pick i a (n + 1) = turns pick i a n + if pick (a + n) = i then 1 else 0 := by
  rw [turns, turns, Finset.range_add_one, Finset.filter_insert]
  by_cases h : pick (a + n) = i
  · rw [if_pos h, if_pos h, Finset.card_insert_of_notMem (by simp)]
  · rw [if_neg h, if_neg h, add_zero]

/-- A run of the rule: from zero credit, every round charged to a party of greatest credit, and
equal credits giving equal choices. -/
structure Apportions (B : Finset ι) (w : ι → ℤ) (pick : ℕ → ι) (credit : ℕ → ι → ℤ) : Prop where
  pos : ∀ i ∈ B, 0 < w i
  start : ∀ i ∈ B, credit 0 i = 0
  mem : ∀ k, pick k ∈ B
  greatest : ∀ k, ∀ i ∈ B, credit k i + w i ≤ credit k (pick k) + w (pick k)
  next : ∀ k, ∀ i ∈ B, credit (k + 1) i = charge B w (credit k) (pick k) i
  determined : ∀ a b, (∀ i ∈ B, credit a i = credit b i) → pick a = pick b

namespace Apportions

variable {B : Finset ι} {w : ι → ℤ} {pick : ℕ → ι} {credit : ℕ → ι → ℤ}

theorem total_pos (h : Apportions B w pick credit) : 0 < ∑ j ∈ B, w j :=
  Finset.sum_pos h.pos ⟨pick 0, h.mem 0⟩

theorem balanced (h : Apportions B w pick credit) (k : ℕ) : Balanced B w (credit k) := by
  have hcongr : ∀ c c' : ι → ℤ, (∀ i ∈ B, c i = c' i) → Balanced B w c' → Balanced B w c :=
    fun c c' heq hc => ⟨(Finset.sum_congr rfl heq).trans hc.sum, fun i hi => heq i hi ▸ hc.gt i hi⟩
  induction k with
  | zero => exact hcongr _ _ h.start (Balanced.zero ⟨pick 0, h.mem 0⟩ h.pos)
  | succ k ih => exact hcongr _ _ (h.next k) (ih.charge h.pos (h.mem k) (h.greatest k))

/-- Credit is what was earned less what the turns cost. -/
theorem credit_add (h : Apportions B w pick credit) {i : ι} (hi : i ∈ B) (a n : ℕ) :
    credit (a + n) i = credit a i + n * w i - (∑ j ∈ B, w j) * turns pick i a n := by
  induction n with
  | zero => simp
  | succ n ih =>
    rw [← add_assoc, h.next (a + n) i hi, charge, ih, turns_succ]
    by_cases hpick : pick (a + n) = i
    · rw [if_pos hpick.symm, if_pos hpick]
      push_cast
      ring
    · rw [if_neg (fun heq => hpick heq.symm), if_neg hpick]
      push_cast
      ring

theorem sum_turns (h : Apportions B w pick credit) (a n : ℕ) :
    ∑ i ∈ B, (turns pick i a n : ℤ) = n := by
  induction n with
  | zero => simp
  | succ n ih =>
    have hone : ∑ i ∈ B, (if pick (a + n) = i then (1 : ℤ) else 0) = 1 := by
      rw [Finset.sum_ite_eq B (pick (a + n)) (fun _ => (1 : ℤ)), if_pos (h.mem (a + n))]
    calc ∑ i ∈ B, (turns pick i a (n + 1) : ℤ)
        = ∑ i ∈ B, ((turns pick i a n : ℤ) + if pick (a + n) = i then (1 : ℤ) else 0) :=
          Finset.sum_congr rfl fun i _ => by rw [turns_succ]; push_cast; rfl
      _ = ((n + 1 : ℕ) : ℤ) := by
          rw [Finset.sum_add_distrib, ih, hone]
          push_cast
          rfl

/-- The first period: nobody can take more turns than its weight, and the turns add up. -/
theorem turns_period (h : Apportions B w pick credit) {n : ℕ} (hn : (n : ℤ) = ∑ j ∈ B, w j)
    {i : ι} (hi : i ∈ B) : (turns pick i 0 n : ℤ) = w i := by
  have hle : ∀ j ∈ B, 0 ≤ w j - turns pick j 0 n := by
    intro j hj
    have hcredit := h.credit_add hj 0 n
    rw [zero_add, h.start j hj, zero_add, hn] at hcredit
    have hlow : -∑ j ∈ B, w j < (∑ j ∈ B, w j) * (w j - turns pick j 0 n) := by
      rw [mul_sub, ← hcredit]
      exact (h.balanced n).gt j hj
    by_contra hneg
    have hdrop : w j - turns pick j 0 n ≤ -1 := by omega
    have := mul_le_mul_of_nonneg_left hdrop h.total_pos.le
    omega
  have hsum : ∑ j ∈ B, (w j - turns pick j 0 n) = 0 := by
    rw [Finset.sum_sub_distrib, h.sum_turns 0 n, hn, sub_self]
  have hzero := (Finset.sum_eq_zero_iff_of_nonneg hle).mp hsum i hi
  omega

theorem credit_period (h : Apportions B w pick credit) {n : ℕ} (hn : (n : ℤ) = ∑ j ∈ B, w j)
    {i : ι} (hi : i ∈ B) : credit n i = 0 := by
  have hcredit := h.credit_add hi 0 n
  rw [zero_add, h.start i hi, zero_add, h.turns_period hn hi, hn, sub_self] at hcredit
  exact hcredit

/-- Credits repeat from any round on: equal credits make equal choices. -/
theorem credit_add_period (h : Apportions B w pick credit) {n : ℕ}
    (hn : (n : ℤ) = ∑ j ∈ B, w j) (a : ℕ) : ∀ i ∈ B, credit (a + n) i = credit a i := by
  induction a with
  | zero =>
    intro i hi
    rw [zero_add, h.credit_period hn hi, h.start i hi]
  | succ a ih =>
    intro i hi
    rw [add_right_comm, h.next (a + n) i hi, h.next a i hi, charge, charge, ih i hi,
      h.determined (a + n) a ih]

/-- **Exact fairness.**  Any `∑ w` consecutive turns give every party exactly its weight. -/
theorem turns_eq (h : Apportions B w pick credit) {n : ℕ} (hn : (n : ℤ) = ∑ j ∈ B, w j)
    (a : ℕ) {i : ι} (hi : i ∈ B) : (turns pick i a n : ℤ) = w i := by
  have hcredit := h.credit_add hi a n
  rw [h.credit_add_period hn a i hi, hn] at hcredit
  have hprod : (∑ j ∈ B, w j) * (turns pick i a n : ℤ) = (∑ j ∈ B, w j) * w i := by omega
  exact mul_left_cancel₀ h.total_pos.ne' hprod

end Apportions

end Statute.Base
