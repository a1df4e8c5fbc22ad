import Mathlib.Data.List.Nodup
import Mathlib.Data.Option.Basic
import Mathlib.Logic.Function.Basic

/-!
# Intrusive doubly linked lists

Nodes that carry the links of the list they are in, with a head and a tail.  `Links.Chain` says
which list the links spell out; unlinking a node and appending one are proved to erase it from that
list and to append it (`Chain.unlink`, `Chain.pushBack`).
-/

namespace Statute.Base

/-- The links of nodes, and the two ends of the list. -/
structure Links (ι : Type) where
  prev : ι → Option ι
  next : ι → Option ι
  head : Option ι
  tail : Option ι

namespace Links

variable {ι : Type} [DecidableEq ι]

/-- Take a node out: its neighbours, or the ends, are linked past it. -/
def unlink (L : Links ι) (e : ι) : Links ι where
  head := if L.prev e = none then L.next e else L.head
  tail := if L.next e = none then L.prev e else L.tail
  next := fun i => if i = e then none else if L.prev e = some i then L.next e else L.next i
  prev := fun i => if i = e then none else if L.next e = some i then L.prev e else L.prev i

/-- Append a node that has no successor. -/
def pushBack (L : Links ι) (e : ι) : Links ι where
  head := if L.tail = none then some e else L.head
  tail := some e
  next := fun i => if L.tail = some i then some e else L.next i
  prev := fun i => if i = e then L.tail else L.prev i

/-- The links spell out the list `l`: every node stands between its neighbours there. -/
structure Chain (L : Links ι) (l : List ι) : Prop where
  nodup : l.Nodup
  head : L.head = l.head?
  tail : L.tail = l.getLast?
  between : ∀ before e after, l = before ++ e :: after →
    L.prev e = before.getLast? ∧ L.next e = after.head?

variable {L : Links ι} {l : List ι}

omit [DecidableEq ι] in
theorem Chain.nil (L : Links ι) (hhead : L.head = none) (htail : L.tail = none) : L.Chain [] :=
  ⟨List.nodup_nil, hhead, htail, by simp⟩

omit [DecidableEq ι] in
/-- Only the links of the nodes in the list matter. -/
theorem Chain.congr {L' : Links ι} (h : L.Chain l) (hhead : L'.head = L.head)
    (htail : L'.tail = L.tail) (hnode : ∀ e ∈ l, L'.prev e = L.prev e ∧ L'.next e = L.next e) :
    L'.Chain l := by
  refine ⟨h.nodup, hhead.trans h.head, htail.trans h.tail, ?_⟩
  intro before e after hsplit
  obtain ⟨hprev, hnext⟩ := hnode e (by rw [hsplit]; simp)
  rw [hprev, hnext]
  exact h.between before e after hsplit

omit [DecidableEq ι] in
/-- The successor of a node is in the list, and is another node. -/
theorem Chain.next_mem (h : L.Chain l) {e n : ι} (he : e ∈ l) (hn : L.next e = some n) :
    n ∈ l ∧ n ≠ e := by
  obtain ⟨before, after, rfl⟩ := List.append_of_mem he
  rw [(h.between _ _ _ rfl).2] at hn
  obtain ⟨rest, rfl⟩ : ∃ rest, after = n :: rest := by
    cases after with
    | nil => cases hn
    | cons a rest => exact ⟨rest, by rw [Option.some.inj hn]⟩
  refine ⟨by simp, ?_⟩
  rintro rfl
  have hnodup := h.nodup
  simp [List.nodup_append] at hnodup

omit [DecidableEq ι] in
theorem Chain.head_mem (h : L.Chain l) {e : ι} (he : L.head = some e) : e ∈ l :=
  List.mem_of_head? (h.head ▸ he)

omit [DecidableEq ι] in
/-- A node of `p ++ q` stands in `p` or in `q`. -/
theorem append_eq_append_cons {p q left right : List ι} {a : ι} (h : p ++ q = left ++ a :: right) :
    (∃ mid, p = left ++ a :: mid ∧ right = mid ++ q) ∨
      (∃ mid, q = mid ++ a :: right ∧ left = p ++ mid) := by
  rcases List.append_eq_append_iff.1 h with ⟨mid, hleft, hq⟩ | ⟨mid, hp, hright⟩
  · exact Or.inr ⟨mid, hq, hleft⟩
  · cases mid with
    | nil => exact Or.inr ⟨[], by simpa using hright.symm, by simpa using hp.symm⟩
    | cons m ms =>
      obtain ⟨rfl, hms⟩ := List.cons.inj hright
      exact Or.inl ⟨ms, hp, hms⟩

omit [DecidableEq ι] in
/-- In a list without repetition, a node that is followed by others is not the last one. -/
theorem getLast?_ne {left after : List ι} {a : ι} (hnodup : (left ++ a :: after).Nodup)
    (hafter : after ≠ []) : (left ++ a :: after).getLast? ≠ some a := by
  intro hlast
  have hmem : a ∈ after := by
    apply List.mem_of_getLast?
    rw [← hlast, List.getLast?_append, List.getLast?_cons]
    cases hl : after.getLast? with
    | none => exact absurd (List.getLast?_eq_none_iff.1 hl) hafter
    | some b => simp
  exact (List.nodup_cons.1 (List.nodup_append.1 hnodup).2.1).1 hmem

/-- **Unlinking.** Unlinking a node of the list erases it. -/
theorem Chain.unlink {before after : List ι} {e : ι} (h : L.Chain (before ++ e :: after)) :
    (L.unlink e).Chain (before ++ after) := by
  obtain ⟨hprev, hnext⟩ := h.between _ _ _ rfl
  obtain ⟨hnot, hnodup⟩ := List.nodup_cons.1 (List.nodup_middle.1 h.nodup)
  have hdisjoint : ∀ a ∈ before, a ∉ after := fun a ha hb =>
    (List.nodup_append.1 hnodup).2.2 a ha a hb rfl
  refine ⟨hnodup, ?_, ?_, ?_⟩
  · simp only [Links.unlink, hprev, hnext, h.head]
    cases before with
    | nil => simp
    | cons b bs => simp
  · simp only [Links.unlink, hprev, hnext, h.tail]
    cases after with
    | nil => simp
    | cons a as => simp [List.getLast?_append, List.getLast?_cons]
  · intro left a right hsplit
    have hae : a ≠ e := by
      rintro rfl
      exact hnot (by rw [hsplit]; simp)
    simp only [Links.unlink, if_neg hae, hprev, hnext]
    -- only the last node before `e` and the first one after it get a new neighbour
    rcases append_eq_append_cons hsplit with ⟨mid, rfl, rfl⟩ | ⟨mid, rfl, rfl⟩
    · obtain ⟨hp, hn⟩ := h.between left a (mid ++ e :: after) (by simp)
      have hfirst : after.head? ≠ some a := fun hfirst =>
        hdisjoint a (by simp) (List.mem_of_head? hfirst)
      rw [if_neg hfirst]
      refine ⟨hp, ?_⟩
      cases mid with
      | nil => simp
      | cons n ns =>
        rw [if_neg (getLast?_ne (List.nodup_append.1 hnodup).1 (by simp)), hn]
        rfl
    · obtain ⟨hp, hn⟩ := h.between (before ++ e :: mid) a right (by simp)
      have hlast : before.getLast? ≠ some a := fun hlast =>
        hdisjoint a (List.mem_of_getLast? hlast) (by simp)
      rw [if_neg hlast]
      refine ⟨?_, hn⟩
      cases mid with
      | nil => simp
      | cons m ms =>
        have hfirst : (m :: ms ++ a :: right).head? ≠ some a := by
          intro hm
          have hma : m = a := Option.some.inj hm
          have hq := (List.nodup_append.1 hnodup).2.1
          rw [hma] at hq
          exact (List.nodup_cons.1 hq).1 (by simp)
        rw [if_neg hfirst, hp]
        simp [List.getLast?_append, List.getLast?_cons]

/-- **Appending.** A node outside the list, without a successor, becomes its last one. -/
theorem Chain.pushBack (h : L.Chain l) {e : ι} (he : e ∉ l) (hnext : L.next e = none) :
    (L.pushBack e).Chain (l ++ [e]) := by
  refine ⟨?_, ?_, by simp [Links.pushBack], ?_⟩
  · refine List.nodup_append.2 ⟨h.nodup, List.nodup_singleton e, ?_⟩
    intro a ha b hb hab
    rw [List.mem_singleton.1 hb] at hab
    exact he (hab ▸ ha)
  · simp only [Links.pushBack, h.tail, h.head]
    cases l with
    | nil => simp
    | cons a as => simp [List.getLast?_cons]
  · intro before a after hsplit
    simp only [Links.pushBack, h.tail]
    rcases append_eq_append_cons hsplit with ⟨mid, rfl, rfl⟩ | ⟨mid, hone, rfl⟩
    · obtain ⟨hp, hn⟩ := h.between before a mid rfl
      have hae : a ≠ e := by
        rintro rfl
        exact he (by simp)
      rw [if_neg hae]
      refine ⟨hp, ?_⟩
      cases mid with
      | nil => simp
      | cons n ns =>
        rw [if_neg (getLast?_ne h.nodup (by simp)), hn]
        rfl
    · cases mid with
      | nil =>
        obtain ⟨rfl, rfl⟩ := List.cons.inj (hone : [e] = a :: after)
        have hlast : l.getLast? ≠ some e := fun hlast => he (List.mem_of_getLast? hlast)
        simp [hlast, hnext]
      | cons m ms => simp at hone

end Links

end Statute.Base
