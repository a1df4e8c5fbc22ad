import Mathlib.Data.List.Basic
import Mathlib.Data.List.Sort
import Mathlib.Order.WellFounded
import Mathlib.Data.Fintype.Basic
import Mathlib.Data.Fintype.Lattice
import Mathlib.Tactic

/-!
# Absorption in a finite preorder

`absorb le xs` drops every element of `xs` that another element covers, keeping the first of two
elements that cover each other.  When `le` is transitive on the list, every element stays below a
survivor (`exists_absorb_ge`), so dropping covered elements loses no coverage, and a non-empty
list keeps a survivor (`absorb_ne_nil`).  Survivors are pairwise incomparable (`absorb_pairwise`),
so absorbing again changes nothing, and when the list is sorted by a key that decides `le` the keys
that survive depend on the set of keys alone (`map_key_absorb_eq`).  In a stably sorted list the first
of several equal elements survives (`mem_of_mem_absorb_sorted`).

`addUnseen same base xs` appends the elements of `xs` that nothing before them is the same as.
-/

namespace Statute.Base

variable {α : Type*} (le : α → α → Bool)

/-- Whether some other element of `xs` covers the one at index `i`; of two elements that cover each
other only the lower index survives. -/
def coveredByOther (xs : List α) (i : Fin xs.length) : Bool :=
  (List.finRange xs.length).any fun j =>
    i ≠ j && le (xs.get i) (xs.get j) && (!le (xs.get j) (xs.get i) || decide (j < i))

/-- The elements no other element covers, in order. -/
def absorb (xs : List α) : List α :=
  ((List.finRange xs.length).filter fun i => !coveredByOther le xs i).map xs.get

variable {le}

theorem mem_absorb {xs : List α} {x : α} :
    x ∈ absorb le xs ↔ ∃ i : Fin xs.length, coveredByOther le xs i = false ∧ xs.get i = x := by
  simp [absorb]

theorem absorb_subset {xs : List α} {x : α} (h : x ∈ absorb le xs) : x ∈ xs := by
  obtain ⟨i, _, rfl⟩ := mem_absorb.1 h
  exact List.get_mem xs i

theorem coveredByOther_iff {xs : List α} {i : Fin xs.length} :
    coveredByOther le xs i = true ↔
      ∃ j : Fin xs.length, i ≠ j ∧ le (xs.get i) (xs.get j) = true ∧
        (le (xs.get j) (xs.get i) = false ∨ j < i) := by
  simp [coveredByOther, and_assoc]

/-- The order in which an index is dropped: `j` covers `i` strictly, or mutually from the left. -/
def Drops (le : α → α → Bool) (xs : List α) (j i : Fin xs.length) : Prop :=
  le (xs.get i) (xs.get j) = true ∧ (le (xs.get j) (xs.get i) = false ∨ j < i)

section Transitive

variable {xs : List α}
  (htrans : ∀ x ∈ xs, ∀ y ∈ xs, ∀ z ∈ xs, le x y = true → le y z = true → le x z = true)

include htrans

theorem drops_trans {k j i : Fin xs.length} (hkj : Drops le xs k j) (hji : Drops le xs j i) :
    Drops le xs k i := by
  have hi := List.get_mem xs i
  have hj := List.get_mem xs j
  have hk := List.get_mem xs k
  refine ⟨htrans _ hi _ hj _ hk hji.1 hkj.1, ?_⟩
  by_cases hki : le (xs.get k) (xs.get i) = true
  · -- all three cover each other, so both steps went to a lower index
    have hjk : le (xs.get k) (xs.get j) = true := htrans _ hk _ hi _ hj hki hji.1
    have hij : le (xs.get j) (xs.get i) = true := htrans _ hj _ hk _ hi hkj.1 hki
    have h1 : k < j := hkj.2.resolve_left (by rw [hjk]; exact Bool.noConfusion)
    have h2 : j < i := hji.2.resolve_left (by rw [hij]; exact Bool.noConfusion)
    exact Or.inr (h1.trans h2)
  · exact Or.inl (by simpa using hki)

theorem drops_wellFounded : WellFounded (Drops le xs) := by
  have : IsTrans (Fin xs.length) (Drops le xs) := ⟨fun _ _ _ => drops_trans htrans⟩
  have : Std.Irrefl (Drops le xs) := by
    constructor
    intro i h
    rcases h.2 with hne | hlt
    · rw [h.1] at hne
      exact Bool.noConfusion hne
    · exact lt_irrefl i hlt
  exact Finite.wellFounded_of_trans_of_irrefl _

/-- **Absorption keeps coverage.**  Every element is a survivor or lies below one. -/
theorem exists_absorb_ge {x : α} (hx : x ∈ xs) :
    ∃ y ∈ absorb le xs, x = y ∨ le x y = true := by
  obtain ⟨i, rfl⟩ := List.get_of_mem hx
  -- well-founded induction on the index along the dropping order
  induction i using (drops_wellFounded htrans).induction with
  | _ i ih =>
    cases hc : coveredByOther le xs i with
    | false => exact ⟨xs.get i, mem_absorb.2 ⟨i, hc, rfl⟩, Or.inl rfl⟩
    | true =>
      obtain ⟨j, _, hle, hdrop⟩ := coveredByOther_iff.1 hc
      obtain ⟨y, hy, hjy⟩ := ih j ⟨hle, hdrop⟩ (List.get_mem xs j)
      refine ⟨y, hy, Or.inr ?_⟩
      rcases hjy with rfl | hjy
      · exact hle
      · exact htrans _ (List.get_mem xs i) _ (List.get_mem xs j) _ (absorb_subset hy) hle hjy

theorem absorb_ne_nil (hne : xs ≠ []) : absorb le xs ≠ [] := by
  obtain ⟨x, hx⟩ := List.exists_mem_of_ne_nil xs hne
  obtain ⟨y, hy, _⟩ := exists_absorb_ge htrans hx
  exact List.ne_nil_of_mem hy

end Transitive

/-! ### What is left -/

theorem not_covered {xs : List α} {i j : Fin xs.length} (hi : coveredByOther le xs i = false)
    (hne : i ≠ j) (hle : le (xs.get i) (xs.get j) = true) :
    le (xs.get j) (xs.get i) = true ∧ i < j := by
  have hnot : ¬ (le (xs.get j) (xs.get i) = false ∨ j < i) := fun hdrop =>
    absurd (coveredByOther_iff.2 ⟨j, hne, hle, hdrop⟩) (by rw [hi]; exact Bool.false_ne_true)
  rw [not_or, Bool.not_eq_false] at hnot
  exact ⟨hnot.1, lt_of_le_of_ne (not_lt.1 hnot.2) hne⟩

/-- Survivors do not cover each other. -/
theorem absorb_pairwise (xs : List α) :
    (absorb le xs).Pairwise fun x y => le x y = false ∧ le y x = false := by
  rw [absorb, List.pairwise_map, List.pairwise_filter]
  refine (List.pairwise_lt_finRange xs.length).imp fun {i j} hlt hi hj => ?_
  rw [Bool.not_eq_true'] at hi hj
  refine ⟨?_, ?_⟩ <;> rw [← Bool.not_eq_true] <;> intro hle
  · -- the later one is covered by the earlier, strictly or mutually
    have hback := (not_covered hi hlt.ne hle).1
    exact absurd (not_covered hj hlt.ne' hback).2 (not_lt.2 hlt.le)
  · exact absurd (not_covered hj hlt.ne' hle).2 (not_lt.2 hlt.le)

theorem absorb_sublist (xs : List α) : (absorb le xs).Sublist xs := by
  have h := (List.filter_sublist (p := fun i => !coveredByOther le xs i)
    (l := List.finRange xs.length)).map xs.get
  rwa [List.map_get_finRange] at h

theorem absorb_eq_self {xs : List α}
    (h : xs.Pairwise fun x y => le x y = false ∧ le y x = false) : absorb le xs = xs := by
  have hget := List.pairwise_iff_get.1 h
  have hnone : ∀ i, coveredByOther le xs i = false := by
    intro i
    rw [← Bool.not_eq_true, coveredByOther_iff]
    rintro ⟨j, hne, hle, _⟩
    rcases lt_or_gt_of_ne hne with hlt | hlt
    · exact absurd hle (by rw [(hget i j hlt).1]; exact Bool.false_ne_true)
    · exact absurd hle (by rw [(hget j i hlt).2]; exact Bool.false_ne_true)
  rw [absorb, List.filter_eq_self.2 fun i _ => by rw [hnone i]; rfl, List.map_get_finRange]

/-- An element that covers everything is the only survivor. -/
theorem absorb_eq_singleton {xs : List α} {m : α} (hm : m ∈ absorb le xs)
    (htop : ∀ x ∈ xs, le x m = true) : absorb le xs = [m] := by
  have hpair : (absorb le xs).Pairwise fun x y => le x y = false ∧ le y x = false :=
    absorb_pairwise xs
  obtain ⟨before, after, hsplit⟩ := List.append_of_mem hm
  have hall : ∀ x ∈ absorb le xs, le x m = true := fun x hx => htop x (absorb_subset hx)
  rw [hsplit] at hpair hall ⊢
  rw [List.pairwise_append, List.pairwise_cons] at hpair
  have hbefore : before = [] := List.eq_nil_iff_forall_not_mem.2 fun x hx =>
    absurd (hall x (by simp [hx])) (by rw [(hpair.2.2 x hx m (by simp)).1]; exact Bool.false_ne_true)
  have hafter : after = [] := List.eq_nil_iff_forall_not_mem.2 fun x hx =>
    absurd (hall x (by simp [hx])) (by rw [(hpair.2.1.1 x hx).2]; exact Bool.false_ne_true)
  rw [hbefore, hafter, List.nil_append]

section Sorted

variable {κ : Type*} [LinearOrder κ] {key : α → κ} {xs : List α}
  (hkey : ∀ x x' y y', key x = key x' → key y = key y' → le x y = le x' y')
  (hrefl : ∀ x ∈ xs, le x x = true) (hsorted : xs.Pairwise fun x y => key x ≤ key y)

include hsorted

theorem key_le_of_lt {i j : Fin xs.length} (h : i < j) : key (xs.get i) ≤ key (xs.get j) :=
  List.pairwise_iff_get.1 hsorted i j h

include hkey hrefl

/-- A key survives when whatever covers one of its elements is covered back and comes no earlier. -/
theorem key_mem_absorb {k : κ} :
    k ∈ (absorb le xs).map key ↔
      ∃ x ∈ xs, key x = k ∧ ∀ y ∈ xs, le x y = true → le y x = true ∧ key x ≤ key y := by
  rw [List.mem_map]
  constructor
  · rintro ⟨x, hx, rfl⟩
    obtain ⟨i, hi, rfl⟩ := mem_absorb.1 hx
    refine ⟨xs.get i, List.get_mem xs i, rfl, fun y hy hle => ?_⟩
    obtain ⟨j, rfl⟩ := List.get_of_mem hy
    by_cases hij : i = j
    · rw [← hij]
      exact ⟨hrefl _ (List.get_mem xs i), le_rfl⟩
    · obtain ⟨hback, hlt⟩ := not_covered hi hij hle
      exact ⟨hback, key_le_of_lt hsorted hlt⟩
  · rintro ⟨x, hx, rfl, hmax⟩
    obtain ⟨i₀, hi₀⟩ := List.get_of_mem hx
    -- the first index of the key survives
    obtain ⟨i, hi, hfirst⟩ := WellFounded.has_min (wellFounded_lt (α := Fin xs.length))
      {i | key (xs.get i) = key x} ⟨i₀, by rw [Set.mem_ofPred_eq, hi₀]⟩
    rw [Set.mem_ofPred_eq] at hi
    refine ⟨xs.get i, mem_absorb.2 ⟨i, ?_, rfl⟩, hi⟩
    rw [← Bool.not_eq_true, coveredByOther_iff]
    rintro ⟨j, _, hle, hdrop⟩
    obtain ⟨hback, hge⟩ := hmax (xs.get j) (List.get_mem xs j)
      (by rw [← hkey _ _ _ _ hi rfl]; exact hle)
    rw [hkey _ _ _ _ rfl hi.symm] at hback
    have hlt : j < i := hdrop.resolve_left (by rw [hback]; exact Bool.noConfusion)
    have heq : key (xs.get j) = key x :=
      le_antisymm ((key_le_of_lt hsorted hlt).trans_eq hi) hge
    exact hfirst j heq hlt

/-- The surviving keys are strictly sorted: equal keys cover each other. -/
theorem absorb_key_lt : ((absorb le xs).map key).Pairwise (· < ·) := by
  rw [List.pairwise_map]
  have hle : (absorb le xs).Pairwise fun x y => key x ≤ key y := hsorted.sublist (absorb_sublist xs)
  refine (hle.and (absorb_pairwise xs)).imp_of_mem fun {x y} hx _ h => ?_
  refine lt_of_le_of_ne h.1 fun heq => ?_
  have hxy := hkey x x y x rfl heq.symm
  rw [h.2.1, hrefl x (absorb_subset hx)] at hxy
  exact absurd hxy Bool.false_ne_true

end Sorted

/-- **What survives depends on the set of keys.**  Two lists sorted by a key that decides the
covering, with the same elements, keep the same keys in the same order. -/
theorem map_key_absorb_eq {κ : Type*} [LinearOrder κ] {key : α → κ} {xs ys : List α}
    (hkey : ∀ x x' y y', key x = key x' → key y = key y' → le x y = le x' y')
    (hrefl : ∀ x ∈ xs, le x x = true) (hxs : xs.Pairwise fun x y => key x ≤ key y)
    (hys : ys.Pairwise fun x y => key x ≤ key y) (hmem : ∀ x, x ∈ ys ↔ x ∈ xs) :
    (absorb le ys).map key = (absorb le xs).map key := by
  have hrefl' : ∀ x ∈ ys, le x x = true := by
    simpa only [hmem] using hrefl
  refine List.Pairwise.eq_of_mem_iff (absorb_key_lt hkey hrefl' hys)
    (absorb_key_lt hkey hrefl hxs) fun k => ?_
  rw [key_mem_absorb hkey hrefl' hys, key_mem_absorb hkey hrefl hxs]
  simp only [hmem]

/-! ### Ties in a sorted list -/

section Ties

variable {r : α → α → Prop} [DecidableRel r] {p : α → Bool} {xs ys : List α}

/-- Sorting keeps elements that tie in their order. -/
theorem filter_insertionSort (htie : ∀ x ∈ xs, ∀ y ∈ xs, p x = true → p y = true → r x y) :
    (xs.insertionSort r).filter p = xs.filter p := by
  have hsorted : (xs.filter p).Pairwise r := List.pairwise_of_forall_mem_list fun x hx y hy =>
    htie x (List.mem_of_mem_filter hx) y (List.mem_of_mem_filter hy) (List.of_mem_filter hx)
      (List.of_mem_filter hy)
  have hsub := (List.sublist_insertionSort hsorted List.filter_sublist).filter p
  simp only [List.filter_filter, Bool.and_self] at hsub
  exact (hsub.eq_of_length ((List.perm_insertionSort r xs).filter p).length_eq.symm).symm

/-- Of elements that tie and cover each other, one of the first list survives. -/
theorem mem_of_mem_absorb_sorted {x : α} (hx : x ∈ absorb le ((xs ++ ys).insertionSort r))
    (hpx : p x = true) (hfirst : ∃ y ∈ xs, p y = true)
    (htie : ∀ y ∈ xs ++ ys, ∀ z ∈ xs ++ ys, p y = true → p z = true → r y z ∧ le y z = true) :
    x ∈ xs := by
  obtain ⟨i, hi, rfl⟩ := mem_absorb.1 hx
  have hfilter := filter_insertionSort fun y hy z hz hpy hpz => (htie y hy z hz hpy hpz).1
  generalize hl : (xs ++ ys).insertionSort r = l at i hi hpx hfilter
  have hmem : ∀ y, y ∈ l ↔ y ∈ xs ++ ys := fun y => by rw [← hl, List.mem_insertionSort]
  -- nothing that ties stands before the survivor
  have hbefore : (l.take i).filter p = [] := by
    rw [List.filter_eq_nil_iff]
    intro y hy hpy
    obtain ⟨j, hj, rfl⟩ := List.mem_take_iff_getElem.1 hy
    have hji : (⟨j, by omega⟩ : Fin l.length) < i := by
      rw [Fin.lt_def]
      show j < i.1
      omega
    have hle := htie _ ((hmem _).1 (List.get_mem l i)) _ ((hmem _).1 (List.getElem_mem _)) hpx hpy
    exact absurd (not_covered hi hji.ne' hle.2).2 (not_lt.2 hji.le)
  have hsplit : l = l.take i ++ l.get i :: l.drop (i + 1) := by
    rw [List.get_eq_getElem, List.getElem_cons_drop, List.take_append_drop]
  obtain ⟨y, hy, hpy⟩ := hfirst
  rw [hsplit, List.filter_append, hbefore, List.nil_append, List.filter_cons_of_pos hpx,
    List.filter_append] at hfilter
  have hne : xs.filter p ≠ [] := List.ne_nil_of_mem (List.mem_filter.2 ⟨hy, hpy⟩)
  obtain ⟨z, zs, hzs⟩ := List.exists_cons_of_ne_nil hne
  rw [hzs, List.cons_append, List.cons.injEq] at hfilter
  rw [hfilter.1]
  exact List.mem_of_mem_filter (p := p) (hzs ▸ List.mem_cons_self)

end Ties

/-! ### Appending the unseen -/

variable {same : α → α → Bool}

/-- Append, in order, what is the same as nothing before it. -/
def addUnseen (same : α → α → Bool) (base xs : List α) : List α :=
  xs.foldl (fun acc x => if acc.any (same x) then acc else acc ++ [x]) base

theorem addUnseen_cons (base : List α) (x : α) (rest : List α) :
    addUnseen same base (x :: rest) =
      if base.any (same x) then addUnseen same base rest else addUnseen same (base ++ [x]) rest := by
  rw [addUnseen, List.foldl_cons]
  split <;> rfl

theorem addUnseen_spec (same : α → α → Bool) (base xs : List α) :
    (∃ added, addUnseen same base xs = base ++ added ∧ ∀ x ∈ added, x ∈ xs) ∧
      ∀ x ∈ xs, ∃ o ∈ addUnseen same base xs, o = x ∨ same x o = true := by
  induction xs generalizing base with
  | nil => exact ⟨⟨[], by simp [addUnseen]⟩, by simp⟩
  | cons x rest ih =>
    rw [addUnseen_cons]
    split
    · rename_i hany
      obtain ⟨⟨added, heq, hadded⟩, hseen⟩ := ih base
      obtain ⟨o, ho, hsame⟩ := List.any_eq_true.1 hany
      refine ⟨⟨added, heq, fun y hy => List.mem_cons_of_mem _ (hadded y hy)⟩, fun y hy => ?_⟩
      rcases List.mem_cons.1 hy with rfl | hy
      · exact ⟨o, heq ▸ List.mem_append_left _ ho, Or.inr hsame⟩
      · exact hseen y hy
    · obtain ⟨⟨added, heq, hadded⟩, hseen⟩ := ih (base ++ [x])
      refine ⟨⟨x :: added, by rw [heq, List.append_assoc]; rfl, ?_⟩, fun y hy => ?_⟩
      · intro y hy
        exact List.mem_cons.2 ((List.mem_cons.1 hy).imp_right (hadded y))
      · rcases List.mem_cons.1 hy with rfl | hy
        · exact ⟨y, heq ▸ by simp, Or.inl rfl⟩
        · exact hseen y hy

theorem addUnseen_eq_self {base xs : List α}
    (h : ∀ x ∈ xs, ∃ o ∈ base, same x o = true) : addUnseen same base xs = base := by
  induction xs with
  | nil => rfl
  | cons x rest ih =>
    obtain ⟨o, ho, hsame⟩ := h x List.mem_cons_self
    rw [addUnseen_cons, if_pos (List.any_eq_true.2 ⟨o, ho, hsame⟩)]
    exact ih fun y hy => h y (List.mem_cons_of_mem _ hy)

end Statute.Base
