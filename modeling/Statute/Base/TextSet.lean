import Statute.Base.Bytes
import Statute.Base.StableSort

/-!
# Sorted sets of texts

`slices.Sort` followed by `slices.Compact`: the form in which a list of texts is kept when only its
members matter.
-/

namespace Statute.Base

/-- `slices.Compact`: consecutive duplicates removed. -/
def compactSorted : List Bytes → List Bytes
  | [] => []
  | [a] => [a]
  | a :: b :: rest => if a = b then compactSorted (b :: rest) else a :: compactSorted (b :: rest)

/-- The members of a list in order, each once. -/
def textSet (texts : List Bytes) : List Bytes := compactSorted (stableSort (fun a b => a < b) texts)

theorem mem_compactSorted {texts : List Bytes} {x : Bytes} : x ∈ compactSorted texts ↔ x ∈ texts := by
  induction texts using compactSorted.induct with
  | case1 => rfl
  | case2 a => rfl
  | case3 b rest ih => rw [compactSorted, if_pos rfl, ih]; simp
  | case4 a b rest h ih => rw [compactSorted, if_neg h, List.mem_cons, ih, List.mem_cons]; simp

@[simp] theorem mem_textSet {texts : List Bytes} {x : Bytes} : x ∈ textSet texts ↔ x ∈ texts := by
  rw [textSet, mem_compactSorted, mem_stableSort]

end Statute.Base
