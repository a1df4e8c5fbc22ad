import Mathlib.Logic.Equiv.Basic
import Mathlib.Order.Basic
import Mathlib.Tactic.Ring
import Mathlib.Tactic.SplitIfs

/-!
# A binary heap of items that know their position

The operations of Go's `container/heap` over a slice whose `Swap`, `Push` and `Pop` write each
item's position back into the item.  Items are numbers; their keys come from outside and may change
between operations, after which `fix` restores the order.

* `Swaps`: sifting only swaps positions of one part of the slice, so what a swap keeps (the items,
  their positions, everything beyond) every sift keeps;
* `Around`: the order everywhere but at one position; `up` and `down` repair it from either side;
* `Valid`: positions and order together, kept by `push`, `pop`, `remove` and `fix`.
-/

namespace Statute.Base

/-- The parent of a position; position 0 is its own. -/
def parent (i : ℕ) : ℕ := (i - 1) / 2

theorem parent_lt {i : ℕ} (h : 0 < i) : parent i < i := by
  unfold parent
  omega

theorem parent_le (i : ℕ) : parent i ≤ i := by
  unfold parent
  omega

/-- The positions of the children of a position. -/
theorem parent_eq_iff {c i : ℕ} (hc : 0 < c) : parent c = i ↔ c = 2 * i + 1 ∨ c = 2 * i + 2 := by
  unfold parent
  omega

/-! ### The slice -/

/-- A slice of items, and the position each item records. -/
structure Slots where
  size : ℕ := 0
  item : ℕ → ℕ := fun _ => 0
  index : ℕ → ℕ := fun _ => 0

namespace Slots

/-- `Swap`: exchange two items and record their new positions. -/
def swap (h : Slots) (i j : ℕ) : Slots :=
  { h with
    item := h.item ∘ Equiv.swap i j
    index := Function.update (Function.update h.index (h.item j) i) (h.item i) j }

def Mem (h : Slots) (p : ℕ) : Prop := ∃ i < h.size, h.item i = p

/-- Every item records its position. -/
def Linked (h : Slots) : Prop := ∀ i < h.size, h.index (h.item i) = i

theorem Linked.injective {h : Slots} (hl : h.Linked) {i j : ℕ} (hi : i < h.size) (hj : j < h.size)
    (heq : h.item i = h.item j) : i = j := by
  rw [← hl i hi, heq, hl j hj]

theorem Linked.mem_iff {h : Slots} (hl : h.Linked) {p : ℕ} :
    h.Mem p ↔ h.index p < h.size ∧ h.item (h.index p) = p := by
  constructor
  · rintro ⟨i, hi, rfl⟩
    rw [hl i hi]
    exact ⟨hi, rfl⟩
  · exact fun hp => ⟨h.index p, hp.1, hp.2⟩

theorem linked_swap {h : Slots} (hl : h.Linked) {i j : ℕ} (hi : i < h.size) (hj : j < h.size) :
    (h.swap i j).Linked := by
  intro k hk
  show Function.update (Function.update h.index (h.item j) i) (h.item i) j
    (h.item (Equiv.swap i j k)) = k
  by_cases hkj : k = j
  · rw [hkj, Equiv.swap_apply_right, Function.update_self]
  by_cases hki : k = i
  · rw [hki, Equiv.swap_apply_left]
    by_cases heq : h.item j = h.item i
    · rw [heq, Function.update_self]
      exact hl.injective hj hi heq
    · rw [Function.update_of_ne heq, Function.update_self]
  · rw [Equiv.swap_apply_of_ne_of_ne hki hkj,
      Function.update_of_ne fun heq => hki (hl.injective hk hi heq),
      Function.update_of_ne fun heq => hkj (hl.injective hk hj heq), hl k hk]

theorem mem_swap {h : Slots} {i j : ℕ} (hi : i < h.size) (hj : j < h.size) (p : ℕ) :
    (h.swap i j).Mem p ↔ h.Mem p := by
  have hbound : ∀ k < h.size, Equiv.swap i j k < h.size := by
    intro k hk
    rw [Equiv.swap_apply_def]
    split_ifs <;> assumption
  constructor
  · rintro ⟨k, hk, hp⟩
    exact ⟨Equiv.swap i j k, hbound k hk, hp⟩
  · rintro ⟨k, hk, hp⟩
    refine ⟨Equiv.swap i j k, hbound k hk, ?_⟩
    show h.item (Equiv.swap i j (Equiv.swap i j k)) = p
    rw [Equiv.swap_apply_self, hp]

/-- One slice from another by swaps of positions below `n`. -/
inductive Swaps (n : ℕ) : Slots → Slots → Prop
  | refl (h : Slots) : Swaps n h h
  | step {h h' : Slots} {i j : ℕ} (hi : i < n) (hj : j < n) (hrest : Swaps n (h.swap i j) h') :
      Swaps n h h'

namespace Swaps

variable {n : ℕ} {h h' h'' : Slots}

theorem size_eq (hs : Swaps n h h') : h'.size = h.size := by
  induction hs with
  | refl _ => rfl
  | step _ _ _ ih => exact ih

theorem linked (hs : Swaps n h h') (hn : n ≤ h.size) (hl : h.Linked) : h'.Linked := by
  induction hs with
  | refl _ => exact hl
  | step hi hj _ ih => exact ih hn (linked_swap hl (hi.trans_le hn) (hj.trans_le hn))

theorem mem (hs : Swaps n h h') (hn : n ≤ h.size) (p : ℕ) : h'.Mem p ↔ h.Mem p := by
  induction hs with
  | refl _ => rfl
  | step hi hj _ ih => exact (ih hn).trans (mem_swap (hi.trans_le hn) (hj.trans_le hn) p)

/-- Positions from `n` on keep their item. -/
theorem item_eq (hs : Swaps n h h') {k : ℕ} (hk : n ≤ k) : h'.item k = h.item k := by
  induction hs with
  | refl _ => rfl
  | @step h h' i j hi hj _ ih =>
    rw [ih]
    show h.item (Equiv.swap i j k) = h.item k
    rw [Equiv.swap_apply_of_ne_of_ne (by omega) (by omega)]

end Swaps

end Slots

/-! ### The order around one position -/

section Order

variable {κ : Type*} [LinearOrder κ] {v : ℕ → κ} {n i : ℕ}

/-- Every position comes no earlier than its parent. -/
def Ordered (v : ℕ → κ) (n : ℕ) : Prop := ∀ c, 0 < c → c < n → v (parent c) ≤ v c

/-- The order wherever position `i` is not involved, and across it. -/
structure Around (v : ℕ → κ) (n i : ℕ) : Prop where
  off : ∀ c, 0 < c → c < n → c ≠ i → parent c ≠ i → v (parent c) ≤ v c
  across : ∀ c, 0 < c → c < n → parent c = i → 0 < i → v (parent i) ≤ v c

/-- Position `i` against its children. -/
def Below (v : ℕ → κ) (n i : ℕ) : Prop := ∀ c, 0 < c → c < n → parent c = i → v i ≤ v c

/-- Position `i` against its parent. -/
def Above (v : ℕ → κ) (i : ℕ) : Prop := 0 < i → v (parent i) ≤ v i

theorem Around.ordered (h : Around v n i) (hbelow : Below v n i) (habove : Above v i) :
    Ordered v n := by
  intro c hc hcn
  by_cases hci : c = i
  · rw [hci]
    exact habove (hci ▸ hc)
  by_cases hpi : parent c = i
  · rw [hpi]
    exact hbelow c hc hcn hpi
  · exact h.off c hc hcn hci hpi

theorem Ordered.around (h : Ordered v n) {v' : ℕ → κ} (hv : ∀ k < n, k ≠ i → v' k = v k) :
    Around v' n i := by
  refine ⟨fun c hc hcn hci hpi => ?_, fun c hc hcn hpi hi => ?_⟩
  · rw [hv c hcn hci, hv (parent c) ((parent_le c).trans_lt hcn) hpi]
    exact h c hc hcn
  · have hlt := parent_lt hc
    have hgrand := parent_lt hi
    rw [hv c hcn (by omega), hv (parent i) (by omega) (by omega)]
    exact (h i hi (by omega)).trans (hpi ▸ h c hc hcn)

/-- Moving the item at `i` above its parent moves the trouble to the parent. -/
theorem Around.move_up (h : Around v n i) (hi : 0 < i) (hin : i < n)
    (hlt : v i < v (parent i)) :
    Around (v ∘ Equiv.swap (parent i) i) n (parent i) ∧
      Below (v ∘ Equiv.swap (parent i) i) n (parent i) := by
  have hpi := parent_lt hi
  have hleft : (v ∘ Equiv.swap (parent i) i) (parent i) = v i :=
    congrArg v (Equiv.swap_apply_left _ _)
  have hright : (v ∘ Equiv.swap (parent i) i) i = v (parent i) :=
    congrArg v (Equiv.swap_apply_right _ _)
  have hrest : ∀ k, k ≠ parent i → k ≠ i → (v ∘ Equiv.swap (parent i) i) k = v k :=
    fun k hp hk => congrArg v (Equiv.swap_apply_of_ne_of_ne hp hk)
  have hgrand : 0 < parent i → v (parent (parent i)) ≤ v (parent i) := fun hpos =>
    h.off (parent i) hpos (by omega) hpi.ne (by have := parent_lt hpos; omega)
  -- A child of the parent is the item itself or its sibling.
  have hchild : ∀ c, 0 < c → c < n → parent c = parent i → c ≠ i → v (parent i) ≤ v c :=
    fun c hc hcn hcp hci => hcp ▸ h.off c hc hcn hci (by omega)
  refine ⟨⟨fun c hc hcn hcp hpp => ?_, fun c hc hcn hcp hpos => ?_⟩, fun c hc hcn hcp => ?_⟩
  · have hci : c ≠ i := fun hci => hpp (by rw [hci])
    rw [hrest c hcp hci]
    by_cases hpci : parent c = i
    · rw [hpci, hright]
      exact h.across c hc hcn hpci hi
    · rw [hrest (parent c) hpp hpci]
      exact h.off c hc hcn hci hpci
  · have hpp := parent_lt hpos
    rw [hrest (parent (parent i)) (by omega) (by omega)]
    by_cases hci : c = i
    · rw [hci, hright]
      exact hgrand hpos
    · rw [hrest c (by have := parent_lt hc; omega) hci]
      exact (hgrand hpos).trans (hchild c hc hcn hcp hci)
  · rw [hleft]
    by_cases hci : c = i
    · rw [hci, hright]
      exact hlt.le
    · rw [hrest c (by have := parent_lt hc; omega) hci]
      exact hlt.le.trans (hchild c hc hcn hcp hci)

/-- Moving the least child above the item moves the trouble to the child, with nothing above it. -/
theorem Around.move_down (h : Around v n i) {j : ℕ} (hj : 0 < j) (hjn : j < n) (hpj : parent j = i)
    (hleast : ∀ c, 0 < c → c < n → parent c = i → v j ≤ v c) (hlt : v j < v i) :
    Around (v ∘ Equiv.swap i j) n j ∧ Above (v ∘ Equiv.swap i j) j := by
  have hij : i < j := hpj ▸ parent_lt hj
  have hleft : (v ∘ Equiv.swap i j) i = v j := congrArg v (Equiv.swap_apply_left _ _)
  have hright : (v ∘ Equiv.swap i j) j = v i := congrArg v (Equiv.swap_apply_right _ _)
  have hrest : ∀ k, k ≠ i → k ≠ j → (v ∘ Equiv.swap i j) k = v k :=
    fun k hi hk => congrArg v (Equiv.swap_apply_of_ne_of_ne hi hk)
  refine ⟨⟨fun c hc hcn hcj hpc => ?_, fun c hc hcn hpc _ => ?_⟩, fun _ => ?_⟩
  · by_cases hci : c = i
    · have hp : parent i < i := parent_lt (hci ▸ hc)
      rw [hci, hleft, hrest (parent i) (by omega) (by omega)]
      exact h.across j hj hjn hpj (hci ▸ hc)
    · rw [hrest c hci hcj]
      by_cases hpi : parent c = i
      · rw [hpi, hleft]
        exact hleast c hc hcn hpi
      · rw [hrest (parent c) hpi hpc]
        exact h.off c hc hcn hci hpi
  · have hp := parent_lt hc
    rw [hpj, hleft, hrest c (by omega) (by omega)]
    exact hpc ▸ h.off c hc hcn (by omega) (by omega)
  · rw [hpj, hleft, hright]
    exact hlt.le

end Order

/-! ### Sifting -/

namespace Slots

variable {κ : Type*} [LinearOrder κ] (key : ℕ → κ)

def up (h : Slots) (j : ℕ) : Slots :=
  if _hmove : 0 < j ∧ key (h.item j) < key (h.item (parent j)) then
    up (h.swap (parent j) j) (parent j)
  else h
termination_by j
decreasing_by exact parent_lt _hmove.1

/-- The child `down` compares with: the second only when it comes earlier. -/
def lesserChild (h : Slots) (n i : ℕ) : ℕ :=
  if 2 * i + 2 < n ∧ key (h.item (2 * i + 2)) < key (h.item (2 * i + 1)) then 2 * i + 2
  else 2 * i + 1

theorem lt_lesserChild (h : Slots) (n i : ℕ) : i < lesserChild key h n i := by
  unfold lesserChild
  split_ifs <;> omega

/-- The loop of `down`: the slice and the position it stops at. -/
def sink (h : Slots) (n i : ℕ) : Slots × ℕ :=
  if _hmove : 2 * i + 1 < n ∧ key (h.item (lesserChild key h n i)) < key (h.item i) then
    sink (h.swap i (lesserChild key h n i)) n (lesserChild key h n i)
  else (h, i)
termination_by n - i
decreasing_by
  have := lt_lesserChild key h n i
  omega

/-- `down`: the slice, and whether the item moved. -/
def down (h : Slots) (i n : ℕ) : Slots × Bool :=
  let r := sink key h n i
  (r.1, decide (i < r.2))

/-- `heap.Fix`. -/
def fix (h : Slots) (i : ℕ) : Slots :=
  let r := down key h i h.size
  if r.2 then r.1 else up key r.1 i

/-- `Push` of the slice: append the item and record its position. -/
def append (h : Slots) (p : ℕ) : Slots where
  size := h.size + 1
  item := Function.update h.item h.size p
  index := Function.update h.index p h.size

/-- `heap.Push`. -/
def push (h : Slots) (p : ℕ) : Slots := up key (h.append p) h.size

/-- `Pop` of the slice: forget the last item. -/
def dropLast (h : Slots) : Slots := { h with size := h.size - 1 }

/-- `heap.Pop`. -/
def pop (h : Slots) : ℕ × Slots :=
  let n := h.size - 1
  let r := (down key (h.swap 0 n) 0 n).1
  (r.item n, r.dropLast)

/-- `heap.Remove`. -/
def remove (h : Slots) (i : ℕ) : Slots :=
  let n := h.size - 1
  if n = i then h.dropLast
  else
    let r := down key (h.swap i n) i n
    (if r.2 then r.1 else up key r.1 i).dropLast

variable {key}

theorem lesserChild_spec (key : ℕ → κ) (h : Slots) {n i : ℕ} (hn : 2 * i + 1 < n) :
    0 < lesserChild key h n i ∧ lesserChild key h n i < n ∧ parent (lesserChild key h n i) = i ∧
      ∀ c, 0 < c → c < n → parent c = i →
        key (h.item (lesserChild key h n i)) ≤ key (h.item c) := by
  unfold lesserChild
  split_ifs with hsecond
  · refine ⟨by omega, hsecond.1, (parent_eq_iff (by omega)).2 (Or.inr rfl), fun c hc _ hpc => ?_⟩
    rcases (parent_eq_iff hc).1 hpc with rfl | rfl
    · exact hsecond.2.le
    · exact le_rfl
  · refine ⟨by omega, hn, (parent_eq_iff (by omega)).2 (Or.inl rfl), fun c hc hcn hpc => ?_⟩
    rcases (parent_eq_iff hc).1 hpc with rfl | rfl
    · exact le_rfl
    · exact not_lt.1 fun hlt => hsecond ⟨hcn, hlt⟩

variable {h : Slots}

theorem up_spec {n j : ℕ} (hj : j < n) (haround : Around (key ∘ h.item) n j)
    (hbelow : Below (key ∘ h.item) n j) :
    Swaps n h (up key h j) ∧ Ordered (key ∘ (up key h j).item) n := by
  induction j using Nat.strong_induction_on generalizing h with
  | _ j ih =>
    rw [up]
    split_ifs with hmove
    · have hp := parent_lt hmove.1
      obtain ⟨haround', hbelow'⟩ := haround.move_up hmove.1 hj hmove.2
      obtain ⟨hswaps, hordered⟩ := ih (parent j) hp (h := h.swap (parent j) j) (by omega) haround'
        hbelow'
      exact ⟨.step (by omega) hj hswaps, hordered⟩
    · refine ⟨.refl h, haround.ordered hbelow fun hpos => ?_⟩
      exact not_lt.1 fun hlt => hmove ⟨hpos, hlt⟩

theorem le_sink (h : Slots) (n i : ℕ) : i ≤ (sink key h n i).2 := by
  induction hd : n - i using Nat.strong_induction_on generalizing h i with
  | _ d ih =>
    rw [sink]
    split_ifs with hmove
    · have hgt := lt_lesserChild key h n i
      have hlt := (lesserChild_spec key h hmove.1).2.1
      exact hgt.le.trans (ih _ (by omega) _ _ rfl)
    · exact le_rfl

/-- Sinking repairs the order when nothing is wrong above, and in any case once the item moved. -/
theorem sink_spec (key : ℕ → κ) {h : Slots} {n i : ℕ} (hi : i < n) (haround : Around (key ∘ h.item) n i) :
    Swaps n h (sink key h n i).1 ∧
      ((Above (key ∘ h.item) i ∨ i < (sink key h n i).2) →
        Ordered (key ∘ (sink key h n i).1.item) n) ∧
      (¬ i < (sink key h n i).2 → (sink key h n i).1 = h ∧ Below (key ∘ h.item) n i) := by
  induction hd : n - i using Nat.strong_induction_on generalizing h i with
  | _ d ih =>
    rw [sink]
    split_ifs with hmove
    · obtain ⟨hpos, hlt, hparent, hleast⟩ := lesserChild_spec key h hmove.1
      have hgt := lt_lesserChild key h n i
      obtain ⟨haround', habove'⟩ := haround.move_down hpos hlt hparent hleast hmove.2
      obtain ⟨hswaps, hordered, -⟩ := ih (n - lesserChild key h n i) (by omega)
        (h := h.swap i (lesserChild key h n i)) hlt haround' rfl
      refine ⟨.step hi hlt hswaps, fun _ => hordered (Or.inl habove'), fun hno => ?_⟩
      exact absurd (hgt.trans_le (le_sink _ _ _)) hno
    · have hbelow : Below (key ∘ h.item) n i := by
        intro c hc hcn hpc
        by_cases hn : 2 * i + 1 < n
        · have hle := not_lt.1 fun hlt => hmove ⟨hn, hlt⟩
          exact hle.trans ((lesserChild_spec key h hn).2.2.2 c hc hcn hpc)
        · rcases (parent_eq_iff hc).1 hpc with hce | hce <;> omega
      refine ⟨.refl h, fun habove => haround.ordered hbelow ?_, fun _ => ⟨rfl, hbelow⟩⟩
      exact habove.resolve_right (lt_irrefl i)

/-- `down`, and `up` when the item stayed, repairs any one position. -/
theorem down_up_spec (key : ℕ → κ) {h : Slots} {n i : ℕ} (hi : i < n) (haround : Around (key ∘ h.item) n i) :
    let r := down key h i n
    let h' := if r.2 then r.1 else up key r.1 i
    Swaps n h h' ∧ Ordered (key ∘ h'.item) n := by
  intro r h'
  obtain ⟨hswaps, hordered, hstay⟩ := sink_spec key hi haround
  by_cases hmoved : i < (sink key h n i).2
  · have hh' : h' = (sink key h n i).1 := by simp [h', r, down, hmoved]
    rw [hh']
    exact ⟨hswaps, hordered (Or.inr hmoved)⟩
  · obtain ⟨hsame, hbelow⟩ := hstay hmoved
    have hh' : h' = up key h i := by simp [h', r, down, hmoved, hsame]
    rw [hh']
    exact up_spec hi haround hbelow

/-! ### The operations -/

/-- Positions and order of the whole slice. -/
structure Valid (key : ℕ → κ) (h : Slots) : Prop where
  linked : h.Linked
  ordered : Ordered (key ∘ h.item) h.size

theorem valid_empty (key : ℕ → κ) : Valid key {} :=
  ⟨fun _ hi => absurd hi (Nat.not_lt_zero _), fun _ _ hc => absurd hc (Nat.not_lt_zero _)⟩

/-- Keys matter for the items alone. -/
theorem Valid.congr {key' : ℕ → κ} (hv : Valid key h)
    (hkey : ∀ p, h.Mem p → key' p = key p) : Valid key' h := by
  refine ⟨hv.linked, fun c hc hcn => ?_⟩
  show key' (h.item (parent c)) ≤ key' (h.item c)
  rw [hkey _ ⟨parent c, (parent_le c).trans_lt hcn, rfl⟩, hkey _ ⟨c, hcn, rfl⟩]
  exact hv.ordered c hc hcn

/-- **Fix.** After the key of one item changed, `fix` restores the order of the same items. -/
theorem fix_valid (key' : ℕ → κ) (hv : Valid key h) {p : ℕ} (hp : h.Mem p)
    (hkey : ∀ q, q ≠ p → key' q = key q) :
    Valid key' (fix key' h (h.index p)) ∧ (fix key' h (h.index p)).size = h.size ∧
      ∀ q, (fix key' h (h.index p)).Mem q ↔ h.Mem q := by
  obtain ⟨hlt, hitem⟩ := hv.linked.mem_iff.1 hp
  have haround : Around (key' ∘ h.item) h.size (h.index p) := by
    refine hv.ordered.around fun k hk hne => hkey _ fun heq => hne ?_
    exact hv.linked.injective hk hlt (heq.trans hitem.symm)
  obtain ⟨hswaps, hordered⟩ := down_up_spec _ hlt haround
  have hsize := hswaps.size_eq
  exact ⟨⟨hswaps.linked le_rfl hv.linked, by rw [fix, hsize]; exact hordered⟩, hsize,
    hswaps.mem le_rfl⟩

theorem item_append (p : ℕ) {k : ℕ} (hk : k < h.size) : (h.append p).item k = h.item k :=
  Function.update_of_ne hk.ne _ _

theorem item_append_last (h : Slots) (p : ℕ) : (h.append p).item h.size = p :=
  Function.update_self _ _ _

theorem append_linked (hl : h.Linked) {p : ℕ} (hp : ¬ h.Mem p) : (h.append p).Linked := by
  intro k hk
  show Function.update h.index p h.size ((h.append p).item k) = k
  by_cases hke : k = h.size
  · rw [hke, item_append_last, Function.update_self]
  · have hlt : k < h.size := lt_of_le_of_ne (Nat.lt_succ_iff.1 hk) hke
    rw [item_append p hlt, Function.update_of_ne fun heq => hp ⟨k, hlt, heq⟩, hl k hlt]

theorem append_mem (h : Slots) (p q : ℕ) : (h.append p).Mem q ↔ q = p ∨ h.Mem q := by
  constructor
  · rintro ⟨k, hk, rfl⟩
    by_cases hke : k = h.size
    · rw [hke]
      exact Or.inl (item_append_last h p)
    · have hlt : k < h.size := lt_of_le_of_ne (Nat.lt_succ_iff.1 hk) hke
      exact Or.inr ⟨k, hlt, (item_append p hlt).symm⟩
  · rintro (rfl | ⟨k, hk, rfl⟩)
    · exact ⟨h.size, Nat.lt_succ_self _, item_append_last h q⟩
    · exact ⟨k, hk.trans (Nat.lt_succ_self _), item_append p hk⟩

/-- **Push.** One more item. -/
theorem push_valid (hv : Valid key h) {p : ℕ} (hp : ¬ h.Mem p) :
    Valid key (push key h p) ∧ (push key h p).size = h.size + 1 ∧
      ∀ q, (push key h p).Mem q ↔ q = p ∨ h.Mem q := by
  have hchild : ∀ c, 0 < c → c < h.size + 1 → parent c ≠ h.size := fun c hc hcn hpc => by
    have := parent_lt hc
    omega
  have haround : Around (key ∘ (h.append p).item) (h.size + 1) h.size := by
    refine ⟨fun c hc hcn hne _ => ?_, fun c hc hcn hpc _ => absurd hpc (hchild c hc hcn)⟩
    have hlt : c < h.size := by omega
    show key ((h.append p).item (parent c)) ≤ key ((h.append p).item c)
    rw [item_append p hlt, item_append p ((parent_le c).trans_lt hlt)]
    exact hv.ordered c hc hlt
  obtain ⟨hswaps, hordered⟩ := up_spec (Nat.lt_succ_self _) haround
    fun c hc hcn hpc => absurd hpc (hchild c hc hcn)
  refine ⟨⟨hswaps.linked le_rfl (append_linked hv.linked hp), ?_⟩, hswaps.size_eq, fun q => ?_⟩
  · rw [push, hswaps.size_eq]
    exact hordered
  · exact (hswaps.mem le_rfl q).trans (append_mem h p q)

/-- Forgetting the last item. -/
theorem dropLast_mem (hl : h.Linked) (hpos : 0 < h.size) (q : ℕ) :
    h.dropLast.Mem q ↔ h.Mem q ∧ q ≠ h.item (h.size - 1) := by
  constructor
  · rintro ⟨k, hk, rfl⟩
    have hk' : k < h.size - 1 := hk
    refine ⟨⟨k, by omega, rfl⟩, fun heq => ?_⟩
    have := hl.injective (by omega) (by omega) heq
    omega
  · rintro ⟨⟨k, hk, rfl⟩, hne⟩
    have hlast : k ≠ h.size - 1 := fun heq => hne (by rw [heq])
    exact ⟨k, show k < h.size - 1 by omega, rfl⟩

theorem dropLast_linked (hl : h.Linked) : h.dropLast.Linked :=
  fun k hk => hl k (lt_of_lt_of_le hk (Nat.sub_le _ _))

/-- What `pop` and `remove` share: the item of one position swapped to the end, the rest repaired
by swaps, the end forgotten. -/
theorem dropped_valid {h' : Slots} (hv : Valid key h) {i : ℕ} (hi : i < h.size)
    (hswaps : Swaps (h.size - 1) (h.swap i (h.size - 1)) h')
    (hordered : Ordered (key ∘ h'.item) (h.size - 1)) :
    h'.item (h.size - 1) = h.item i ∧ Valid key h'.dropLast ∧ h'.dropLast.size = h.size - 1 ∧
      ∀ q, h'.dropLast.Mem q ↔ h.Mem q ∧ q ≠ h.item i := by
  have hlast : h.size - 1 < h.size := by omega
  have hsize : h'.size = h.size := hswaps.size_eq
  have hlinked : h'.Linked :=
    hswaps.linked (Nat.sub_le _ _) (linked_swap hv.linked hi hlast)
  have hend : h'.item (h.size - 1) = h.item i := by
    rw [hswaps.item_eq le_rfl]
    show h.item (Equiv.swap i (h.size - 1) (h.size - 1)) = h.item i
    rw [Equiv.swap_apply_right]
  refine ⟨hend, ⟨dropLast_linked hlinked, ?_⟩, ?_, fun q => ?_⟩
  · show Ordered (key ∘ h'.item) (h'.size - 1)
    rw [hsize]
    exact hordered
  · show h'.size - 1 = h.size - 1
    rw [hsize]
  · rw [dropLast_mem hlinked (by omega), hsize, hend, hswaps.mem (Nat.sub_le _ _) q,
      mem_swap hi hlast]

/-- The order around the position whose item went to the end. -/
theorem around_swap_last (hv : Valid key h) (i : ℕ) :
    Around (key ∘ (h.swap i (h.size - 1)).item) (h.size - 1) i := by
  have hordered : Ordered (key ∘ h.item) (h.size - 1) :=
    fun c hc hcn => hv.ordered c hc (lt_of_lt_of_le hcn (Nat.sub_le _ _))
  refine hordered.around fun k hk hne => ?_
  show key (h.item (Equiv.swap i (h.size - 1) k)) = key (h.item k)
  rw [Equiv.swap_apply_of_ne_of_ne hne (by omega)]

/-- **Pop.** The item at the root goes, the others stay. -/
theorem pop_valid (hv : Valid key h) (hpos : 0 < h.size) :
    (pop key h).1 = h.item 0 ∧ Valid key (pop key h).2 ∧ (pop key h).2.size = h.size - 1 ∧
      ∀ q, (pop key h).2.Mem q ↔ h.Mem q ∧ q ≠ h.item 0 := by
  by_cases hone : h.size - 1 = 0
  · -- a single item: nothing to sink into
    refine dropped_valid hv hpos ?_ ?_
    · have hsink : sink key (h.swap 0 (h.size - 1)) (h.size - 1) 0 =
          (h.swap 0 (h.size - 1), 0) := by
        rw [sink, dif_neg (by omega)]
      simp only [down, hsink]
      exact .refl _
    · rw [hone]
      exact fun c _ hcn => absurd hcn (Nat.not_lt_zero c)
  · obtain ⟨hswaps, hordered, -⟩ := sink_spec key (by omega) (around_swap_last hv 0)
    exact dropped_valid hv hpos hswaps (hordered (Or.inl fun hlt => absurd hlt (lt_irrefl 0)))

/-- **Remove.** The item at a position goes, the others stay. -/
theorem remove_valid (hv : Valid key h) {p : ℕ} (hp : h.Mem p) :
    Valid key (remove key h (h.index p)) ∧ (remove key h (h.index p)).size = h.size - 1 ∧
      ∀ q, (remove key h (h.index p)).Mem q ↔ h.Mem q ∧ q ≠ p := by
  obtain ⟨hlt, hitem⟩ := hv.linked.mem_iff.1 hp
  by_cases hlast : h.size - 1 = h.index p
  · have hremove : remove key h (h.index p) = h.dropLast := by
      simp only [remove, if_pos hlast]
    rw [hremove]
    refine ⟨⟨dropLast_linked hv.linked, fun c hc hcn => ?_⟩, rfl, fun q => ?_⟩
    · exact hv.ordered c hc (lt_of_lt_of_le hcn (Nat.sub_le _ _))
    · rw [dropLast_mem hv.linked (by omega), hlast, hitem]
  · obtain ⟨hswaps, hordered⟩ := down_up_spec key (h := h.swap (h.index p) (h.size - 1))
      (n := h.size - 1) (by omega) (around_swap_last hv (h.index p))
    have hdropped := dropped_valid hv hlt hswaps hordered
    rw [hitem] at hdropped
    simp only [remove, if_neg hlast]
    exact hdropped.2

end Slots

end Statute.Base
