import Mathlib.Algebra.BigOperators.Group.List.Basic
import Statute.Base.Percent

/-!
# Cleaning an escaped path

`url.URL.JoinPath` without elements cleans the escaped path and keeps a final slash.  A rooted path is
a sequence of elements with a slash in front of each (`rootedJoin`), and so is what cleaning leaves of
it.  Cleaning only takes elements away, so by weight (`foldl_cleanStep_weight`) a path that decodes to
as many bytes after cleaning as before was not changed at all (`cleanSlash_eq_self`).
-/

namespace Statute.Base

/-- The elements of a rooted path, each with the slash in front of it. -/
def rootedJoin (elems : List Bytes) : Bytes := elems.flatMap (ch '/' :: ·)

theorem rootedJoin_cons (e : Bytes) (es : List Bytes) :
    rootedJoin (e :: es) = ch '/' :: (e ++ rootedJoin es) := List.flatMap_cons

variable (f : Bytes → ℕ) (es : List Bytes)

theorem rootedJoin_append (fs : List Bytes) :
    rootedJoin (es ++ fs) = rootedJoin es ++ rootedJoin fs := List.flatMap_append

/-- A slash and a text is the text's elements. -/
theorem rootedJoin_split (s : Bytes) : rootedJoin (split (ch '/') s) = ch '/' :: s := by
  induction s with
  | nil => rfl
  | cons b bs ih =>
    simp only [split]
    split
    · rename_i hb
      rw [rootedJoin_cons, ih, hb, List.nil_append]
    · split
      · rename_i hsplit
        exact absurd hsplit (split_ne_nil _ bs)
      · rename_i w ws hsplit
        rw [hsplit, rootedJoin_cons, List.cons.injEq] at ih
        rw [rootedJoin_cons, List.cons_append, ih.2]

theorem joinElems_cons_cons (e f : Bytes) (es : List Bytes) :
    joinElems (e :: f :: es) = e ++ ch '/' :: joinElems (f :: es) := by
  simp [joinElems, List.intercalate, List.intersperse, lit]

theorem rootedJoin_eq {es : List Bytes} (h : es ≠ []) : rootedJoin es = ch '/' :: joinElems es := by
  induction es with
  | nil => exact absurd rfl h
  | cons e es ih =>
    cases es with
    | nil => simp [rootedJoin, joinElems, List.intercalate]
    | cons f es =>
      rw [rootedJoin_cons, ih (List.cons_ne_nil f es), joinElems_cons_cons]

/-! ### Weight -/

/-- The weight of some elements. -/
def weight (f : Bytes → ℕ) (es : List Bytes) : ℕ := (es.map f).sum

@[simp] theorem weight_nil : weight f [] = 0 := rfl

@[simp] theorem weight_cons (e : Bytes) (es : List Bytes) :
    weight f (e :: es) = f e + weight f es := by simp [weight]

theorem weight_append (fs : List Bytes) :
    weight f (es ++ fs) = weight f es + weight f fs := by simp [weight]

theorem weight_reverse : weight f es.reverse = weight f es := by
  simp [weight, List.sum_reverse]

variable {stack : List Bytes}

/-- A rooted clean path never climbs. -/
theorem dotDot_not_mem_cleanStep (h : dotDot ∉ stack) (e : Bytes) :
    dotDot ∉ cleanStep true stack e := by
  rcases elem_cases e with he | rfl | he
  · rwa [cleanStep_skip he]
  · cases stack with
    | nil => simp [cleanStep_dotDot_nil]
    | cons top rest =>
      rw [List.mem_cons, not_or] at h
      rw [cleanStep_dotDot_cons, if_neg (Ne.symm h.1)]
      exact h.2
  · rw [cleanStep_ordinary he, List.mem_cons, not_or]
    exact ⟨Ne.symm he.2.2, h⟩

/-- **Cleaning takes weight away**, unless every element is ordinary. -/
theorem foldl_cleanStep_weight {f : Bytes → ℕ} (hf : ∀ e, 0 < f e) (es : List Bytes)
    (h : dotDot ∉ stack) :
    weight f (es.foldl (cleanStep true) stack) ≤ weight f stack + weight f es ∧
      (weight f (es.foldl (cleanStep true) stack) = weight f stack + weight f es →
        es.foldl (cleanStep true) stack = es.reverse ++ stack) := by
  induction es generalizing stack with
  | nil => exact ⟨le_rfl, fun _ => rfl⟩
  | cons e es ih =>
    have hpos := hf e
    obtain ⟨hle, heq⟩ := ih (dotDot_not_mem_cleanStep h e)
    rw [List.foldl_cons, weight_cons]
    rcases elem_cases e with he | rfl | he
    · rw [cleanStep_skip he] at hle heq ⊢
      exact ⟨by omega, fun hw => by omega⟩
    · cases stack with
      | nil =>
        rw [cleanStep_dotDot_nil] at hle heq ⊢
        simp only [if_true, weight_nil] at hle heq ⊢
        exact ⟨by omega, fun hw => by omega⟩
      | cons top rest =>
        rw [List.mem_cons, not_or] at h
        rw [cleanStep_dotDot_cons, if_neg (Ne.symm h.1)] at hle heq ⊢
        rw [weight_cons]
        exact ⟨by omega, fun hw => by omega⟩
    · rw [cleanStep_ordinary he, weight_cons] at hle heq
      rw [cleanStep_ordinary he]
      refine ⟨by omega, fun hw => ?_⟩
      rw [heq (by omega), List.reverse_cons, List.append_assoc, List.singleton_append]

/-! ### What is left -/

/-- Elements kept by cleaning are elements of the path, and ordinary. -/
theorem mem_foldl_cleanStep {e : Bytes} {es : List Bytes} (hdot : dotDot ∉ stack)
    (h : e ∈ es.foldl (cleanStep true) stack) : e ∈ stack ∨ e ∈ es ∧ Ordinary e := by
  induction es generalizing stack with
  | nil => exact Or.inl h
  | cons d es ih =>
    rw [List.foldl_cons] at h
    rcases ih (dotDot_not_mem_cleanStep hdot d) h with hmem | ⟨hmem, hord⟩
    · rcases elem_cases d with hd | rfl | hd
      · rw [cleanStep_skip hd] at hmem
        exact Or.inl hmem
      · cases stack with
        | nil => simp [cleanStep_dotDot_nil] at hmem
        | cons top rest =>
          rw [List.mem_cons, not_or] at hdot
          rw [cleanStep_dotDot_cons, if_neg (Ne.symm hdot.1)] at hmem
          exact Or.inl (List.mem_cons_of_mem top hmem)
      · rw [cleanStep_ordinary hd, List.mem_cons] at hmem
        rcases hmem with rfl | hmem
        · exact Or.inr ⟨List.mem_cons_self, hd⟩
        · exact Or.inl hmem
    · exact Or.inr ⟨List.mem_cons_of_mem d hmem, hord⟩

/-- Clean a path, and keep its final slash. -/
def cleanSlash (s : Bytes) : Bytes :=
  let p := pathClean s
  if hasSuffix s (lit "/") && !hasSuffix p (lit "/") then p ++ lit "/" else p

/-- The elements of a rooted path without its final slash, after cleaning. -/
def keptElems (es : List Bytes) : List Bytes := (es.foldl (cleanStep true) []).reverse

theorem keptElems_snoc_nil : keptElems (es ++ [[]]) = keptElems es := by
  rw [keptElems, keptElems, List.foldl_append, List.foldl_cons, List.foldl_nil,
    cleanStep_skip (Or.inl rfl)]

theorem mem_keptElems {e : Bytes} {es : List Bytes} (h : e ∈ keptElems es) : e ∈ es ∧ Ordinary e := by
  rw [keptElems, List.mem_reverse] at h
  rcases mem_foldl_cleanStep List.not_mem_nil h with hmem | hmem
  · exact absurd hmem List.not_mem_nil
  · exact hmem

theorem pathClean_rooted (s : Bytes) : pathClean (ch '/' :: s) =
    ch '/' :: joinElems (keptElems (split (ch '/') s)) := by
  have hrooted : isRooted (ch '/' :: s) = true := by simp [isRooted, hasPrefix, lit]
  have hstack : cleanStack true (ch '/' :: s) = (split (ch '/') s).foldl (cleanStep true) [] := by
    rw [cleanStack, split, if_pos rfl, List.foldl_cons, cleanStep_skip (Or.inl rfl)]
  rw [pathClean, hrooted, if_pos rfl, hstack, keptElems]

theorem hasSuffix_slash_rootedJoin_snoc {es : List Bytes} {e : Bytes} (h : ch '/' ∉ e) :
    hasSuffix (rootedJoin (es ++ [e])) (lit "/") = decide (e = []) := by
  rw [rootedJoin_append, Bool.eq_iff_iff, hasSuffix_iff, decide_eq_true_eq]
  have hlast : rootedJoin [e] = ch '/' :: e := by simp [rootedJoin]
  rw [hlast]
  cases e with
  | nil => exact ⟨fun _ => rfl, fun _ => ⟨rootedJoin es, rfl⟩⟩
  | cons c e =>
    refine ⟨fun hsuffix => ?_, fun hnil => absurd hnil (by simp)⟩
    obtain ⟨front, hfront⟩ := hsuffix
    have hget : (front ++ [ch '/']).getLast? = (rootedJoin es ++ ch '/' :: c :: e).getLast? :=
      congrArg List.getLast? hfront
    rw [List.getLast?_append_of_ne_nil _ (List.cons_ne_nil _ _), List.getLast?_singleton,
      List.getLast?_append_of_ne_nil _ (List.cons_ne_nil _ _), List.getLast?_cons_cons] at hget
    exact absurd (List.mem_of_getLast? hget.symm) h

/-- **A rooted path after cleaning** is what is kept of its elements; the final slash is an empty
element. -/
theorem cleanSlash_rooted {init : List Bytes} {last : Bytes} (s : Bytes)
    (hsplit : split (ch '/') s = init ++ [last]) :
    cleanSlash (ch '/' :: s) = rootedJoin
      (if last = [] ∨ keptElems (init ++ [last]) = [] then keptElems (init ++ [last]) ++ [[]]
        else keptElems (init ++ [last])) := by
  have hlast : ch '/' ∉ last := not_mem_of_mem_split (s := s) (by rw [hsplit]; simp)
  have hs : hasSuffix (ch '/' :: s) (lit "/") = decide (last = []) := by
    rw [← rootedJoin_split, hsplit]
    exact hasSuffix_slash_rootedJoin_snoc hlast
  unfold cleanSlash
  simp only [hs]
  rw [pathClean_rooted, hsplit]
  by_cases hkept : keptElems (init ++ [last]) = []
  · rw [hkept, if_pos (Or.inr rfl), if_neg]
    · rfl
    · simp [hasSuffix, joinElems, List.intercalate, lit]
  · have hp : hasSuffix (ch '/' :: joinElems (keptElems (init ++ [last]))) (lit "/") = false := by
      rw [← rootedJoin_eq hkept]
      obtain ⟨front, e, he⟩ := List.eq_nil_or_concat (keptElems (init ++ [last])) |>.resolve_left hkept
      have hmem := mem_keptElems (show e ∈ keptElems (init ++ [last]) by rw [he]; simp)
      rw [he, List.concat_eq_append, hasSuffix_slash_rootedJoin_snoc, decide_eq_false_iff_not]
      · exact hmem.2.1
      · exact not_mem_of_mem_split (s := s) (hsplit ▸ hmem.1)
    simp only [hp, Bool.not_false, Bool.and_true, decide_eq_true_eq, hkept, or_false]
    split
    · rw [rootedJoin_append, rootedJoin_eq hkept]
      rfl
    · rw [rootedJoin_eq hkept]

/-! ### Decoding -/

def decoded (s : Bytes) : Bytes := (unescape s).getD []

theorem slash_not_mem_bytes {t : Octet} (h : t.WellFormed) (ht : t ≠ .plain (ch '/')) :
    ch '/' ∉ t.bytes := by
  cases t with
  | plain c =>
    rw [Octet.bytes, List.mem_singleton]
    exact fun hc => ht (by rw [hc])
  | escaped a b =>
    have hnot : ∀ c : UInt8, (hexDigit c).isSome = true → ch '/' ≠ c := by
      intro c hc heq
      rw [← heq] at hc
      cases hc
    simp only [Octet.bytes, List.mem_cons, List.not_mem_nil, or_false, not_or]
    exact ⟨by decide, hnot a h.1, hnot b h.2⟩

/-- A text without slash in front of another belongs to its first element. -/
theorem split_append_left {a : Bytes} (h : ch '/' ∉ a) (s : Bytes) :
    ∃ w ws, split (ch '/') s = w :: ws ∧ split (ch '/') (a ++ s) = (a ++ w) :: ws := by
  induction a with
  | nil =>
    obtain ⟨w, ws, hsplit⟩ := List.exists_cons_of_ne_nil (split_ne_nil (ch '/') s)
    exact ⟨w, ws, hsplit, hsplit⟩
  | cons b a ih =>
    rw [List.mem_cons, not_or] at h
    obtain ⟨w, ws, hsplit, hwhole⟩ := ih h.2
    refine ⟨w, ws, hsplit, ?_⟩
    rw [List.cons_append, split, if_neg (Ne.symm h.1), hwhole]
    rfl

/-- The elements of a text that decodes, decode. -/
theorem unescape_split {s p : Bytes} (h : unescape s = some p) :
    ∀ e ∈ split (ch '/') s, ∃ q, unescape e = some q := by
  obtain ⟨ts, rfl, hwf, -⟩ := exists_octets h
  clear h
  induction ts with
  | nil =>
    intro e he
    rw [octetText_nil, split, List.mem_singleton] at he
    exact ⟨[], by rw [he]; rfl⟩
  | cons t ts ih =>
    have ih := ih fun u hu => hwf u (List.mem_cons_of_mem t hu)
    intro e he
    by_cases ht : t = .plain (ch '/')
    · rw [ht, octetText_cons] at he
      simp only [Octet.bytes, List.singleton_append, split, if_true, List.mem_cons] at he
      rcases he with rfl | he
      · exact ⟨[], rfl⟩
      · exact ih e he
    · have htwf := hwf t List.mem_cons_self
      obtain ⟨w, ws, hsplit, hwhole⟩ := split_append_left (slash_not_mem_bytes htwf ht) (octetText ts)
      rw [octetText_cons, hwhole, List.mem_cons] at he
      rw [hsplit] at ih
      rcases he with rfl | he
      · obtain ⟨q, hq⟩ := ih w List.mem_cons_self
        have htext : unescape t.bytes = some [t.value] := by
          have hwf : ∀ u ∈ [t], u.WellFormed := fun u hu => List.mem_singleton.mp hu ▸ htwf
          have hone := unescape_octetText hwf
          rwa [octetText_cons, octetText_nil, List.append_nil] at hone
        exact ⟨_, unescape_append htext hq⟩
      · exact ih e (List.mem_cons_of_mem w he)

/-- A rooted path decodes element by element. -/
theorem unescape_rootedJoin {es : List Bytes} (h : ∀ e ∈ es, ∃ q, unescape e = some q) :
    unescape (rootedJoin es) = some (rootedJoin (es.map decoded)) := by
  induction es with
  | nil => rfl
  | cons e es ih =>
    obtain ⟨q, hq⟩ := h e List.mem_cons_self
    have hslash : unescape [ch '/'] = some [ch '/'] := by decide
    have hrest := ih fun d hd => h d (List.mem_cons_of_mem e hd)
    have hall := unescape_append hslash (unescape_append hq hrest)
    rw [rootedJoin_cons, List.map_cons, rootedJoin_cons, decoded, hq, Option.getD_some]
    exact hall

theorem length_rootedJoin : (rootedJoin es).length = weight (fun e => e.length + 1) es := by
  induction es with
  | nil => rfl
  | cons e es ih =>
    rw [rootedJoin_cons, weight_cons, List.length_cons, List.length_append, ih]
    omega

/-- Every element that cleaning leaves of a path that decodes, decodes. -/
theorem exists_cleanSlash {s p : Bytes} (h : unescape (ch '/' :: s) = some p) :
    ∃ kept, cleanSlash (ch '/' :: s) = rootedJoin kept ∧
      (∀ e ∈ kept, ∃ q, unescape e = some q) ∧
      (weight (fun e => (decoded e).length + 1) kept =
        weight (fun e => (decoded e).length + 1) (split (ch '/') s) → kept = split (ch '/') s) := by
  have hslash : ch '/' ≠ ch '%' := by decide
  rw [unescape_plain hslash, Option.map_eq_some_iff] at h
  obtain ⟨q, hq, -⟩ := h
  have hdecode := unescape_split hq
  obtain ⟨init, last, hsplit⟩ :=
    List.eq_nil_or_concat (split (ch '/') s) |>.resolve_left (split_ne_nil _ s)
  rw [List.concat_eq_append] at hsplit
  refine ⟨_, cleanSlash_rooted s hsplit, fun e he => ?_, fun hweight => ?_⟩
  · have hmem : e ∈ keptElems (init ++ [last]) ∨ e = [] := by
      split at he
      · rw [List.mem_append, List.mem_singleton] at he
        exact he
      · exact Or.inl he
    rcases hmem with hmem | rfl
    · exact hdecode e (hsplit ▸ (mem_keptElems hmem).1)
    · exact ⟨[], rfl⟩
  · rw [hsplit] at hweight ⊢
    have hkept : ∀ es, weight (fun e => (decoded e).length + 1) (keptElems es) =
        weight (fun e => (decoded e).length + 1) es → keptElems es = es := by
      intro es hes
      have hfold := foldl_cleanStep_weight (f := fun e => (decoded e).length + 1)
        (fun e => Nat.succ_pos _) es List.not_mem_nil
      rw [keptElems, weight_reverse] at hes
      rw [keptElems, hfold.2 (by rw [hes, weight_nil, Nat.zero_add]), List.append_nil,
        List.reverse_reverse]
    by_cases hlast : last = []
    · -- The final slash is kept, so what stands before it weighs as much as before.
      subst hlast
      rw [keptElems_snoc_nil, if_pos (Or.inl rfl)] at hweight ⊢
      rw [weight_append, weight_append, Nat.add_right_cancel_iff] at hweight
      rw [hkept init hweight]
    · by_cases hnone : keptElems (init ++ [last]) = []
      · -- Nothing is left of an element that decodes to at least one byte.
        obtain ⟨r, hr⟩ := hdecode last (by rw [hsplit]; simp)
        have hne : decoded last ≠ [] := by
          intro hnil
          rw [decoded, hr, Option.getD_some] at hnil
          obtain ⟨ts, hts, -, hvalues⟩ := exists_octets hr
          rw [hnil, octetValues, List.map_eq_nil_iff] at hvalues
          exact hlast (by rw [hts, hvalues]; rfl)
        have hpos := List.length_pos_of_ne_nil hne
        rw [hnone, if_pos (Or.inr rfl)] at hweight
        simp only [weight_append, weight_cons, weight_nil] at hweight
        have hzero : (decoded []).length = 0 := rfl
        omega
      · rw [if_neg (by tauto)] at hweight ⊢
        exact hkept _ hweight

/-- **Cleaning and decoding.**  A rooted path that decodes still decodes after cleaning, and one that
decodes to as many bytes as before is unchanged. -/
theorem cleanSlash_spec {s p : Bytes} (h : unescape (ch '/' :: s) = some p) :
    ∃ q, unescape (cleanSlash (ch '/' :: s)) = some q ∧
      (q.length = p.length → cleanSlash (ch '/' :: s) = ch '/' :: s) := by
  obtain ⟨kept, hclean, hdecode, hself⟩ := exists_cleanSlash h
  refine ⟨_, by rw [hclean]; exact unescape_rootedJoin hdecode, fun hlen => ?_⟩
  have hslash : ch '/' ≠ ch '%' := by decide
  have hs := h
  rw [unescape_plain hslash, Option.map_eq_some_iff] at hs
  obtain ⟨q, hq, -⟩ := hs
  rw [← rootedJoin_split s, unescape_rootedJoin (unescape_split hq), Option.some.injEq] at h
  have hweight : ∀ es : List Bytes, (rootedJoin (es.map decoded)).length =
      weight (fun e => (decoded e).length + 1) es := by
    intro es
    rw [length_rootedJoin, weight, List.map_map]
    rfl
  rw [← h, hweight, hweight] at hlen
  rw [hclean, hself hlen, rootedJoin_split]

end Statute.Base
