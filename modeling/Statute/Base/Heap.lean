import Mathlib.Algebra.BigOperators.Group.Finset.Basic
import Mathlib.Algebra.Order.BigOperators.Group.Finset
import Mathlib.Algebra.Order.Group.Int
import Mathlib.Tactic.Ring

/-!
# Numbered cells

A heap of cells of one type, numbered in the order of their allocation, and the totals that an
accounting argument takes over them.  A step of a program changes one cell at a time, so one rule
carries every such argument: `total_change` says how a total moves when all cells but one keep
their contribution.
-/

namespace Statute.Base

/-- Cells `0 … size - 1`; what lies beyond has not been allocated. -/
structure Heap (α : Type) where
  cell : ℕ → α
  size : ℕ

namespace Heap

variable {α β : Type}

/-- No cells yet. -/
def empty [Inhabited α] : Heap α := ⟨fun _ => default, 0⟩

/-- Overwrite one cell. -/
def set (h : Heap α) (i : ℕ) (a : α) : Heap α := { h with cell := Function.update h.cell i a }

/-- Change one cell. -/
def modify (h : Heap α) (i : ℕ) (f : α → α) : Heap α := h.set i (f (h.cell i))

def alloc (h : Heap α) (a : α) : Heap α := ⟨Function.update h.cell h.size a, h.size + 1⟩

variable (h : Heap α)

@[simp] theorem size_set (i : ℕ) (a : α) : (h.set i a).size = h.size := rfl

@[simp] theorem size_modify (i : ℕ) (f : α → α) : (h.modify i f).size = h.size := rfl

@[simp] theorem size_alloc (a : α) : (h.alloc a).size = h.size + 1 := rfl

@[simp] theorem cell_set (i j : ℕ) (a : α) :
    (h.set i a).cell j = if j = i then a else h.cell j := by
  simp [set, Function.update_apply]

@[simp] theorem cell_modify (i j : ℕ) (f : α → α) :
    (h.modify i f).cell j = if j = i then f (h.cell i) else h.cell j := by
  simp [modify]

/-- What holds of the new content of one cell and of all others holds of every cell. -/
theorem forall_modify {h : Heap α} {i : ℕ} {u : α → α} {P : ℕ → α → Prop} (hi : P i (u (h.cell i)))
    (hothers : ∀ j < h.size, j ≠ i → P j (h.cell j)) : ∀ j < h.size, P j ((h.modify i u).cell j) := by
  intro j hj
  rw [cell_modify]
  split
  · rename_i hji
    exact hji ▸ hi
  · rename_i hji
    exact hothers j hj hji

@[simp] theorem cell_alloc (a : α) (j : ℕ) :
    (h.alloc a).cell j = if j = h.size then a else h.cell j := by
  simp [alloc, Function.update_apply]

@[simp] theorem modify_id (i : ℕ) : h.modify i (fun x => x) = h := by
  simp [modify, set]

/-- The sum of what the cells contribute. -/
def total (h : Heap α) (f : α → ℤ) : ℤ := ∑ i ∈ Finset.range h.size, f (h.cell i)

@[simp] theorem total_empty [Inhabited α] (f : α → ℤ) : (empty : Heap α).total f = 0 := rfl

variable {f : α → ℤ}

/-- Equal contributions have equal totals. -/
theorem total_congr {h : Heap α} {k : Heap β} {g : β → ℤ} (hsize : k.size = h.size)
    (hcell : ∀ j < h.size, g (k.cell j) = f (h.cell j)) : k.total g = h.total f := by
  rw [total, total, hsize]
  exact Finset.sum_congr rfl (fun j hj => hcell j (Finset.mem_range.1 hj))

/-- **One cell.** When every cell but `i` keeps its contribution, the total moves by the change at
`i`. -/
theorem total_change {h : Heap α} {k : Heap β} {g : β → ℤ} {i : ℕ} (hi : i < h.size)
    (hsize : k.size = h.size) (hcell : ∀ j < h.size, j ≠ i → g (k.cell j) = f (h.cell j)) :
    k.total g = h.total f - f (h.cell i) + g (k.cell i) := by
  have hmem : i ∈ Finset.range h.size := Finset.mem_range.2 hi
  have hrest : ∑ j ∈ (Finset.range h.size).erase i, g (k.cell j) =
      ∑ j ∈ (Finset.range h.size).erase i, f (h.cell j) := by
    apply Finset.sum_congr rfl
    intro j hj
    rw [Finset.mem_erase, Finset.mem_range] at hj
    exact hcell j hj.2 hj.1
  rw [total, total, hsize, ← Finset.add_sum_erase _ _ hmem,
    ← Finset.add_sum_erase _ (fun j => f (h.cell j)) hmem, hrest]
  ring

/-- The total after a change of one cell. -/
theorem total_modify {h : Heap α} {i : ℕ} (hi : i < h.size) (u : α → α) (f : α → ℤ) :
    (h.modify i u).total f = h.total f - f (h.cell i) + f (u (h.cell i)) := by
  have hchange := total_change (k := h.modify i u) (f := f) (g := f) hi rfl
    (fun j _ hj => by rw [cell_modify, if_neg hj])
  rwa [cell_modify, if_pos rfl] at hchange

/-- **One more cell.** An allocation adds the contribution of the new cell. -/
theorem total_alloc {h : Heap α} {a : α} {g : α → ℤ}
    (hcell : ∀ j < h.size, g (h.cell j) = f (h.cell j)) :
    (h.alloc a).total g = h.total f + g a := by
  have hold : ∑ j ∈ Finset.range h.size, g ((h.alloc a).cell j) =
      ∑ j ∈ Finset.range h.size, f (h.cell j) := by
    apply Finset.sum_congr rfl
    intro j hj
    rw [Finset.mem_range] at hj
    rw [cell_alloc, if_neg hj.ne, hcell j hj]
  rw [total, total, size_alloc, Finset.sum_range_succ, hold, cell_alloc, if_pos rfl]

theorem total_nonneg {h : Heap α} (hf : ∀ i < h.size, 0 ≤ f (h.cell i)) : 0 ≤ h.total f :=
  Finset.sum_nonneg (fun i hi => hf i (Finset.mem_range.1 hi))

/-- One contribution is at most the total of contributions that are not negative. -/
theorem le_total {h : Heap α} (hf : ∀ i < h.size, 0 ≤ f (h.cell i)) {i : ℕ} (hi : i < h.size) :
    f (h.cell i) ≤ h.total f :=
  Finset.single_le_sum (f := fun i => f (h.cell i)) (fun j hj => hf j (Finset.mem_range.1 hj))
    (Finset.mem_range.2 hi)

end Heap

end Statute.Base
