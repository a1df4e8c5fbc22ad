import Statute.Base.Bytes
import Statute.Base.StableSort

/-!
# Maps with text keys

A Go map with string keys as the list of its entries in the order a `range` visits them.  `upsert`
is the read-or-create update of accumulating loops, and `sortedEntries` the visit in key order.
-/

namespace Statute.Base

variable {β : Type}

/-- `m[k]`, with the zero value of an absent key given. -/
def textGet (m : List (Bytes × β)) (k : Bytes) (zero : β) : β := (m.lookup k).getD zero

variable {m : List (Bytes × β)}

theorem mem_of_lookup {k : Bytes} {v : β} (h : m.lookup k = some v) : (k, v) ∈ m := by
  obtain ⟨l₁, l₂, rfl, _⟩ := List.lookup_eq_some_iff.1 h
  simp

/-- Update the entry of `k`, creating it from `zero` when it is absent. -/
def upsert (k : Bytes) (zero : β) (f : β → β) : List (Bytes × β) → List (Bytes × β)
  | [] => [(k, f zero)]
  | (k', v) :: rest => if k' = k then (k', f v) :: rest else (k', v) :: upsert k zero f rest

/-- The entries in the order of their keys. -/
def sortedEntries (m : List (Bytes × β)) : List (Bytes × β) := stableSort (fun a b => a.1 < b.1) m

@[simp] theorem mem_sortedEntries {e : Bytes × β} : e ∈ sortedEntries m ↔ e ∈ m :=
  mem_stableSort

/-- The entry of `k` after an update is the update of its old value or of the zero value. -/
theorem mem_upsert {k : Bytes} {zero : β} {f : β → β} {e : Bytes × β} (h : e ∈ upsert k zero f m) :
    e ∈ m ∨ (e.1 = k ∧ ∃ v, (v = zero ∨ (k, v) ∈ m) ∧ e.2 = f v) := by
  induction m with
  | nil =>
    rw [upsert, List.mem_singleton] at h
    exact Or.inr ⟨by rw [h], zero, Or.inl rfl, by rw [h]⟩
  | cons p rest ih =>
    obtain ⟨k', v⟩ := p
    simp only [upsert] at h
    split at h
    · rename_i hk
      rcases List.mem_cons.1 h with rfl | h
      · exact Or.inr ⟨hk, v, Or.inr (by simp [hk]), rfl⟩
      · exact Or.inl (List.mem_cons_of_mem _ h)
    · rcases List.mem_cons.1 h with rfl | h
      · exact Or.inl List.mem_cons_self
      · rcases ih h with h | ⟨hk, w, hw, he⟩
        · exact Or.inl (List.mem_cons_of_mem _ h)
        · exact Or.inr ⟨hk, w, hw.imp_right (List.mem_cons_of_mem _), he⟩

end Statute.Base
