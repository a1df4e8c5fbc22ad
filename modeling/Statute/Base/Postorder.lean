import Mathlib.Logic.Relation
import Mathlib.Data.List.Nodup

/-!
# Lists in which successors come first

A depth-first search that records a vertex only after all its successors builds, newest entry first, a
list in which every successor of an entry is older than the entry itself.  Whatever such a list holds has
its whole reachable part in the list, and no cycle is reachable from it.
-/

namespace Statute.Base

variable {α : Type} {edge : α → α → Prop}

/-- **Postorder.**  Newest entry first: the successors of an entry are all older than it. -/
inductive Postorder (edge : α → α → Prop) : List α → Prop
  | nil : Postorder edge []
  | cons {a : α} {l : List α} : Postorder edge l → a ∉ l → (∀ b, edge a b → b ∈ l) → Postorder edge (a :: l)

namespace Postorder

variable {l : List α} {a b : α}

/-- A successor of an entry is an entry. -/
theorem closed (h : Postorder edge l) (ha : a ∈ l) (hedge : edge a b) : b ∈ l := by
  induction h with
  | nil => exact absurd ha List.not_mem_nil
  | cons _ _ hsucc ih =>
    apply List.mem_cons_of_mem
    rcases List.mem_cons.mp ha with rfl | hold
    · exact hsucc b hedge
    · exact ih hold

/-- Whatever an entry reaches is an entry. -/
theorem reachable (h : Postorder edge l) (ha : a ∈ l) (hreach : Relation.ReflTransGen edge a b) : b ∈ l := by
  induction hreach with
  | refl => exact ha
  | tail _ hedge ih => exact h.closed ih hedge

/-- No entry lies on a cycle. -/
theorem acyclic (h : Postorder edge l) (ha : a ∈ l) : ¬ Relation.TransGen edge a a := by
  induction h with
  | nil => exact absurd ha List.not_mem_nil
  | @cons c l hl hnew hsucc ih =>
    intro hcycle
    rcases List.mem_cons.mp ha with rfl | hold
    · -- the first step leads to an older entry, and older entries reach only older ones
      obtain ⟨b, hedge, hback⟩ := Relation.TransGen.head'_iff.mp hcycle
      exact hnew (hl.reachable (hsucc b hedge) hback)
    · exact ih hold hcycle

end Postorder

end Statute.Base
