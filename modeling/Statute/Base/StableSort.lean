import Mathlib.Data.List.Sort
import Mathlib.Order.Basic
import Mathlib.Tactic

/-!
# Stable sorting by a comparison

`stableSort less` is the sort that Go's `sort.SliceStable` and `slices.SortStableFunc` agree on
whenever `less` is a strict weak order on the elements: elements that do not compare keep their
order.  When `less` compares a key in a linear order, the result is sorted by that key.
-/

namespace Statute.Base

variable {α κ : Type*}

def stableSort (less : α → α → Bool) (xs : List α) : List α :=
  xs.insertionSort (fun a b => less b a = false)

variable {xs : List α}

@[simp] theorem mem_stableSort {less : α → α → Bool} {x : α} : x ∈ stableSort less xs ↔ x ∈ xs :=
  List.mem_insertionSort _

theorem orderedInsert_congr {r s : α → α → Prop} [DecidableRel r] [DecidableRel s] {x : α}
    (h : ∀ y ∈ xs, r x y ↔ s x y) : xs.orderedInsert r x = xs.orderedInsert s x := by
  induction xs with
  | nil => rfl
  | cons y ys ih =>
    have hy := h y List.mem_cons_self
    have hys := ih fun z hz => h z (List.mem_cons_of_mem _ hz)
    simp only [List.orderedInsert, hys]
    by_cases hr : r x y
    · rw [if_pos hr, if_pos (hy.1 hr)]
    · rw [if_neg hr, if_neg (mt hy.2 hr)]

theorem insertionSort_congr {r s : α → α → Prop} [DecidableRel r] [DecidableRel s]
    (h : ∀ x ∈ xs, ∀ y ∈ xs, r x y ↔ s x y) : xs.insertionSort r = xs.insertionSort s := by
  induction xs with
  | nil => rfl
  | cons x xs ih =>
    have hxs := ih fun y hy z hz => h y (List.mem_cons_of_mem _ hy) z (List.mem_cons_of_mem _ hz)
    simp only [List.insertionSort_cons, hxs]
    refine orderedInsert_congr fun y hy => ?_
    exact h x List.mem_cons_self y (List.mem_cons_of_mem _ ((List.mem_insertionSort _).1 hy))

/-- **A comparison of keys sorts by the key.** -/
theorem pairwise_stableSort [LinearOrder κ] {less : α → α → Bool} {key : α → κ}
    (h : ∀ x ∈ xs, ∀ y ∈ xs, less x y = true ↔ key x < key y) :
    (stableSort less xs).Pairwise (fun x y => key x ≤ key y) := by
  have hsort : stableSort less xs = xs.insertionSort (fun x y => key x ≤ key y) := by
    refine insertionSort_congr fun x hx y hy => ?_
    rw [← Bool.not_eq_true, h y hy x hx, not_lt]
  have : Std.Total (fun x y => key x ≤ key y) := ⟨fun x y => le_total _ _⟩
  have : IsTrans α (fun x y => key x ≤ key y) := ⟨fun _ _ _ => le_trans⟩
  rw [hsort]
  exact List.pairwise_insertionSort _ xs

/-- A sorted list with no key below `k` is its elements at `k` followed by elements above. -/
theorem sorted_split [LinearOrder κ] {key : α → κ} {k : κ} {p : α → Bool}
    (hs : xs.Pairwise (fun x y => key x ≤ key y)) (hk : ∀ x ∈ xs, k ≤ key x)
    (hp : ∀ x ∈ xs, p x = true ↔ key x = k) :
    ∃ later, xs = xs.filter p ++ later ∧ ∀ x ∈ later, k < key x := by
  induction xs with
  | nil => exact ⟨[], rfl, by simp⟩
  | cons x xs ih =>
    rw [List.pairwise_cons] at hs
    have hpx := hp x List.mem_cons_self
    rcases (hk x List.mem_cons_self).eq_or_lt with heq | hlt
    · obtain ⟨later, hsplit, hlater⟩ := ih hs.2 (fun y hy => hk y (List.mem_cons_of_mem _ hy))
        (fun y hy => hp y (List.mem_cons_of_mem _ hy))
      refine ⟨later, ?_, hlater⟩
      rw [List.filter_cons_of_pos (hpx.2 heq.symm), List.cons_append, ← hsplit]
    · -- from the first key above `k` on, every key is above it
      have habove : ∀ y ∈ x :: xs, k < key y := by
        intro y hy
        rcases List.mem_cons.1 hy with rfl | hy
        · exact hlt
        · exact hlt.trans_le (hs.1 y hy)
      have hnone : (x :: xs).filter p = [] :=
        List.filter_eq_nil_iff.2 fun y hy h => (habove y hy).ne' ((hp y hy).1 h)
      exact ⟨x :: xs, by rw [hnone, List.nil_append], habove⟩

end Statute.Base
