import Mathlib.Data.List.Basic
import Mathlib.Order.Lattice
import Mathlib.Order.MinMax

/-!
# Threshold queries over a sliding window

A log of time stamps is asked, with a cutoff that only moves forward, whether at least `m` of them lie
after the cutoff.  `Summarises` says that a shorter list answers every such query, now and later, as
the log does.  It survives dropping what lies before the cutoff, recording one more stamp in both, and
keeping only the last `m` stamps.
-/

namespace Statute.Base

variable {α : Type} [LinearOrder α]

/-- How many stamps lie after the cutoff. -/
def countAfter (c : α) (xs : List α) : ℕ := xs.countP fun x => decide (c < x)

/-- Drop the stamps at or before the cutoff, up to the first one after it. -/
def dropUpTo (c : α) (xs : List α) : List α := xs.dropWhile fun x => !decide (c < x)

theorem countAfter_append (c : α) (xs ys : List α) :
    countAfter c (xs ++ ys) = countAfter c xs + countAfter c ys := List.countP_append

/-- What is dropped counts for no later cutoff. -/
theorem countAfter_dropUpTo {c d : α} (h : c ≤ d) (xs : List α) :
    countAfter d (dropUpTo c xs) = countAfter d xs := by
  induction xs with
  | nil => rfl
  | cons x xs ih =>
    by_cases hx : c < x
    · rw [dropUpTo, List.dropWhile_cons_of_neg (by simpa using hx)]
    · have hd : ¬ d < x := fun hlt => hx (h.trans_lt hlt)
      rw [dropUpTo, List.dropWhile_cons_of_pos (by simpa using hx)]
      change countAfter d (dropUpTo c xs) = _
      rw [ih, countAfter, countAfter, List.countP_cons_of_neg (by simpa using hd)]

/-- Dropping with a later cutoff makes an earlier dropping superfluous. -/
theorem dropUpTo_dropUpTo {c d : α} (h : c ≤ d) (xs : List α) :
    dropUpTo d (dropUpTo c xs) = dropUpTo d xs := by
  induction xs with
  | nil => rfl
  | cons x xs ih =>
    by_cases hx : c < x
    · rw [dropUpTo, dropUpTo, List.dropWhile_cons_of_neg (by simpa using hx)]
      rfl
    · have hd : ¬ d < x := fun hlt => hx (h.trans_lt hlt)
      have hleft : dropUpTo c (x :: xs) = dropUpTo c xs :=
        List.dropWhile_cons_of_pos (by simpa using hx)
      have hright : dropUpTo d (x :: xs) = dropUpTo d xs :=
        List.dropWhile_cons_of_pos (by simpa using hd)
      rw [hleft, hright, ih]

/-- In time order, what is left lies after the cutoff. -/
theorem length_dropUpTo {c : α} {xs : List α} (h : xs.Pairwise (· ≤ ·)) :
    (dropUpTo c xs).length = countAfter c xs := by
  induction xs with
  | nil => rfl
  | cons x xs ih =>
    obtain ⟨hhead, htail⟩ := List.pairwise_cons.mp h
    by_cases hx : c < x
    · have hall : ∀ y ∈ x :: xs, decide (c < y) = true := by
        intro y hy
        rcases List.mem_cons.mp hy with rfl | hy
        · simpa using hx
        · simpa using hx.trans_le (hhead y hy)
      rw [dropUpTo, List.dropWhile_cons_of_neg (by simpa using hx), countAfter,
        List.countP_eq_length.mpr hall]
    · have hdrop : dropUpTo c (x :: xs) = dropUpTo c xs :=
        List.dropWhile_cons_of_pos (by simpa using hx)
      rw [hdrop, ih htail, countAfter, countAfter, List.countP_cons_of_neg (by simpa using hx)]

/-- In time order, `n` stamps taken from the front are only missed where the others already number
`m`, if `m` of them are left. -/
theorem min_countAfter_drop {m n : ℕ} {xs : List α} (c : α) (h : xs.Pairwise (· ≤ ·))
    (hn : n + m ≤ xs.length) : min m (countAfter c (xs.drop n)) = min m (countAfter c xs) := by
  induction n generalizing xs with
  | zero => rw [List.drop_zero]
  | succ n ih =>
    cases xs with
    | nil => rw [List.drop_nil]
    | cons x xs =>
      obtain ⟨hhead, htail⟩ := List.pairwise_cons.mp h
      rw [List.length_cons] at hn
      rw [List.drop_succ_cons, ih htail (by omega)]
      by_cases hx : c < x
      · -- With the first stamp all others count, and there are `m` of them.
        have hall : countAfter c xs = xs.length :=
          List.countP_eq_length.mpr fun y hy => by simpa using hx.trans_le (hhead y hy)
        have hcons : countAfter c (x :: xs) = countAfter c xs + 1 :=
          List.countP_cons_of_pos (by simpa using hx)
        rw [hcons, hall]
        omega
      · have hcons : countAfter c (x :: xs) = countAfter c xs :=
          List.countP_cons_of_neg (by simpa using hx)
        rw [hcons]

/-- `kept` answers as `log` does, whether at least `m` stamps lie after a cutoff, for every cutoff
from `c` on. -/
structure Summarises (m : ℕ) (c : α) (kept log : List α) : Prop where
  sorted : kept.Pairwise (· ≤ ·)
  counts : ∀ d, c ≤ d → min m (countAfter d kept) = min m (countAfter d log)

namespace Summarises

variable {m : ℕ} {c d : α} {kept log : List α}

theorem nil : Summarises m c ([] : List α) [] := ⟨List.Pairwise.nil, fun _ _ => rfl⟩

/-- The cutoff only moves forward. -/
theorem mono (h : Summarises m c kept log) (hcd : c ≤ d) : Summarises m d kept log :=
  ⟨h.sorted, fun e he => h.counts e (hcd.trans he)⟩

theorem dropUpTo (h : Summarises m c kept log) (hcd : c ≤ d) :
    Summarises m d (Base.dropUpTo d kept) log := by
  refine ⟨h.sorted.sublist (List.dropWhile_sublist _), fun e he => ?_⟩
  rw [countAfter_dropUpTo he]
  exact h.counts e (hcd.trans he)

/-- One more stamp in both. -/
theorem snoc (h : Summarises m c kept log) {x : α} (hx : ∀ y ∈ kept, y ≤ x) :
    Summarises m c (kept ++ [x]) (log ++ [x]) := by
  refine ⟨List.pairwise_append.mpr ⟨h.sorted, List.pairwise_singleton _ _, fun y hy z hz => ?_⟩,
    fun e he => ?_⟩
  · rw [List.mem_singleton.mp hz]
    exact hx y hy
  · have hcount := h.counts e he
    rw [countAfter_append, countAfter_append]
    omega

/-- The last `m` stamps are enough. -/
theorem keepLast (h : Summarises m c kept log) :
    Summarises m c (kept.drop (kept.length - m)) log := by
  refine ⟨h.sorted.sublist (List.drop_sublist _ _), fun e he => ?_⟩
  by_cases hlong : m ≤ kept.length
  · rw [min_countAfter_drop e h.sorted (by omega)]
    exact h.counts e he
  · rw [Nat.sub_eq_zero_of_le (by omega), List.drop_zero]
    exact h.counts e he

/-- **The query.**  What is left after dropping answers it. -/
theorem le_length_iff (h : Summarises m c kept log) (hcd : c ≤ d) :
    m ≤ (Base.dropUpTo d kept).length ↔ m ≤ countAfter d log := by
  have hcount := h.counts d hcd
  rw [length_dropUpTo h.sorted]
  omega

end Summarises

end Statute.Base
