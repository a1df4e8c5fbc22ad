import Mathlib.Data.List.DropRight
import Mathlib.Data.List.TakeWhile
import Statute.Cache.Fields

/-!
# Lists of entity tags

`matchTags` of `internal/httpprecondition`: one loop that reads the members of an `If-Match` or
`If-None-Match` value.  Commas, backslashes and high bytes inside the quotes of a tag are data, so the
value cannot be split at its commas first.

* `consumeTag`, `tagsEqual`, `matchTags`: the scanner;
* `EntityTag`, `Member`, `TagList`: the grammar of RFC 9110, members with optional blanks around an
  optional tag;
* `matchTags_valid`, `matchTags_match`: the scanner accepts the lists with a tag, and finds the tags.
-/

namespace Statute.Precondition

open Statute.Base
open Statute.Cache (trimLeftOf trimOf)

/-! ### The scanner -/

/-- The double quote. -/
def quote : UInt8 := 34

def blanks : Bytes := lit " \t"

/-- The blanks and the comma. -/
def separators : Bytes := lit " \t,"

/-- The loop of `consumeTag`: how many bytes stand before the closing quote. -/
def closing : Bytes → Option ℕ
  | [] => none
  | c :: rest =>
    if c = quote then some 0
    else if c < 33 ∨ c = 127 then none
    else (closing rest).map (· + 1)

/-- `consumeTag`: the tag at the front of a value, empty if there is none, and what follows. -/
def consumeTag (value : Bytes) : Bytes × Bytes :=
  let start := if hasPrefix value (lit "W/") then 2 else 0
  match value.drop start with
  | [] => ([], value)
  | c :: rest =>
    if c ≠ quote then ([], value)
    else
      match closing rest with
      | none => ([], value)
      | some n => (value.take (start + 1 + n + 1), value.drop (start + 1 + n + 1))

def tagsEqual (a b : Bytes) (weak : Bool) : Bool :=
  if weak then (cutPrefix a (lit "W/")).1 == (cutPrefix b (lit "W/")).1
  else !hasPrefix a (lit "W/") && !hasPrefix b (lit "W/") && a == b

/-- The loop of `matchTags`; each round consumes a tag, so the length of the value bounds the rounds. -/
def tagLoop (currentTag : Bytes) (weak : Bool) : ℕ → Bytes → Bool → Bool → Bool × Bool
  | 0, _, _, _ => (false, false)
  | fuel + 1, value, matched, anyTag =>
    let value := trimLeftOf separators value
    if value = [] then (matched, anyTag)
    else
      match consumeTag value with
      | ([], _) => (false, false)
      | (tag, rest) =>
        let matched := matched || tagsEqual tag currentTag weak
        match trimLeftOf blanks rest with
        | [] => tagLoop currentTag weak fuel [] matched true
        | c :: rest =>
          if c ≠ ch ',' then (false, false)
          else tagLoop currentTag weak fuel (c :: rest) matched true

/-- `matchTags`: whether the value matches, and whether it is valid. -/
def matchTags (value current : Bytes) (weak : Bool) : Bool × Bool :=
  let value := trimOf blanks value
  if value = lit "*" then (true, true)
  else
    let (tag, rest) := consumeTag (trimOf blanks current)
    let currentTag := if trimOf blanks rest ≠ [] then [] else tag
    tagLoop currentTag weak (value.length + 1) value false false

/-! ### The grammar -/

/-- `etagc`: what may stand between the quotes. -/
def etagByte (c : UInt8) : Bool := c == 33 || (35 ≤ c && c ≤ 126) || 128 ≤ c

structure EntityTag where
  weak : Bool
  text : Bytes
  valid : ∀ c ∈ text, etagByte c = true

/-- How a tag is written. -/
def EntityTag.bytes (t : EntityTag) : Bytes :=
  (if t.weak then lit "W/" else []) ++ quote :: (t.text ++ [quote])

/-- Weak comparison ignores the weakness of either tag; strong comparison refuses it. -/
def EntityTag.Agree (weak : Bool) (a b : EntityTag) : Prop :=
  a.text = b.text ∧ (weak = false → a.weak = false ∧ b.weak = false)

/-- A blank byte. -/
def Blank (c : UInt8) : Prop := c = 32 ∨ c = 9

instance instDecidableBlank : DecidablePred Blank := fun c =>
  inferInstanceAs (Decidable (c = 32 ∨ c = 9))

/-- A member of a list: a tag or nothing, with blanks around it. -/
structure Member where
  before : Bytes
  tag : Option EntityTag
  after : Bytes
  blank_before : ∀ c ∈ before, Blank c
  blank_after : ∀ c ∈ after, Blank c

/-- How a member is written. -/
def Member.bytes (m : Member) : Bytes := m.before ++ (m.tag.elim [] EntityTag.bytes ++ m.after)

/-- A comma list, with the tags of its members. -/
inductive TagList : Bytes → List EntityTag → Prop where
  | last (m : Member) : TagList m.bytes m.tag.toList
  | cons (m : Member) {rest : Bytes} {tags : List EntityTag} : TagList rest tags →
      TagList (m.bytes ++ ch ',' :: rest) (m.tag.toList ++ tags)

def IsStar (value : Bytes) : Prop := trimOf blanks value = lit "*"

def ValidTags (value : Bytes) : Prop := IsStar value ∨ ∃ tags, TagList value tags ∧ tags ≠ []

def SingleTag (value : Bytes) (t : EntityTag) : Prop := trimOf blanks value = t.bytes

def TagsMatch (value current : Bytes) (weak : Bool) : Prop :=
  IsStar value ∨ ∃ tags, TagList value tags ∧ ∃ t ∈ tags, ∃ c, SingleTag current c ∧ t.Agree weak c

/-! ### Blanks -/

theorem blanks_contains (c : UInt8) : blanks.contains c = true ↔ Blank c := by
  simp [blanks, lit, ch, Blank]

theorem separators_contains (c : UInt8) :
    separators.contains c = true ↔ Blank c ∨ c = ch ',' := by
  simp [separators, lit, ch, Blank, or_assoc]

variable {s : Bytes}

theorem trimLeftOf_append {cutset : Bytes} (h : ∀ c ∈ s, cutset.contains c = true) (rest : Bytes) :
    trimLeftOf cutset (s ++ rest) = trimLeftOf cutset rest := by
  induction s with
  | nil => rfl
  | cons c s ih =>
    rw [trimLeftOf, List.cons_append, List.dropWhile_cons_of_pos (h c List.mem_cons_self)]
    exact ih fun d hd => h d (List.mem_cons_of_mem c hd)

theorem trimLeftOf_comma (rest : Bytes) :
    trimLeftOf separators (ch ',' :: rest) = trimLeftOf separators rest :=
  List.dropWhile_cons_of_pos (by decide)

/-- What trimming on the left takes off, and where it stops. -/
theorem exists_trimLeftOf (cutset s : Bytes) : ∃ l, s = l ++ trimLeftOf cutset s ∧
    (∀ c ∈ l, cutset.contains c = true) ∧ ∀ c ∈ (trimLeftOf cutset s).head?, cutset.contains c = false := by
  refine ⟨s.takeWhile fun c => cutset.contains c, (List.takeWhile_append_dropWhile).symm, ?_, ?_⟩
  · intro c hc
    exact List.mem_takeWhile_imp hc
  · intro c hc
    have hhead := List.head?_dropWhile_not (fun c => cutset.contains c) s
    rw [trimLeftOf] at hc
    rw [Option.mem_def.mp hc] at hhead
    simpa using hhead

/-- What trimming takes off on either side. -/
theorem exists_trimOf (cutset s : Bytes) : ∃ l r, s = l ++ (trimOf cutset s ++ r) ∧
    (∀ c ∈ l, cutset.contains c = true) ∧ ∀ c ∈ r, cutset.contains c = true := by
  obtain ⟨l, hl, hlmem, -⟩ := exists_trimLeftOf cutset s
  obtain ⟨r, hr, hrmem, -⟩ := exists_trimLeftOf cutset (trimLeftOf cutset s).reverse
  refine ⟨l, r.reverse, ?_, hlmem, fun c hc => hrmem c (List.mem_reverse.mp hc)⟩
  have hback := congrArg List.reverse hr
  rw [List.reverse_reverse, List.reverse_append] at hback
  rw [trimOf, ← hback]
  exact hl

/-- A trimmed text does not end with a byte of the set. -/
theorem getLast?_trimOf (cutset s : Bytes) :
    ∀ c ∈ (trimOf cutset s).getLast?, cutset.contains c = false := by
  obtain ⟨-, -, -, hhead⟩ := exists_trimLeftOf cutset (trimLeftOf cutset s).reverse
  rw [trimOf, List.getLast?_reverse]
  exact hhead

/-! ### Tags -/

theorem etagByte_iff (c : UInt8) : etagByte c = true ↔ c ≠ quote ∧ ¬ (c < 33 ∨ c = 127) := by
  unfold etagByte quote
  grind [ch]

theorem closing_append (h : ∀ c ∈ s, etagByte c = true) (rest : Bytes) :
    closing (s ++ quote :: rest) = some s.length := by
  induction s with
  | nil => rfl
  | cons c s ih =>
    obtain ⟨hquote, hrange⟩ := (etagByte_iff c).mp (h c List.mem_cons_self)
    rw [List.cons_append, closing, if_neg hquote, if_neg hrange,
      ih fun d hd => h d (List.mem_cons_of_mem c hd)]
    rfl

theorem exists_closing {n : ℕ} (h : closing s = some n) :
    ∃ text rest, s = text ++ quote :: rest ∧ text.length = n ∧ ∀ c ∈ text, etagByte c = true := by
  induction s generalizing n with
  | nil => exact absurd h (by simp [closing])
  | cons c s ih =>
    rw [closing] at h
    split at h
    · rename_i hquote
      rw [Option.some.injEq] at h
      exact ⟨[], s, by rw [hquote]; rfl, h, fun c hc => absurd hc List.not_mem_nil⟩
    · rename_i hquote
      split at h
      · exact absurd h (by simp)
      · rename_i hrange
        obtain ⟨k, hk, rfl⟩ := Option.map_eq_some_iff.mp h
        obtain ⟨text, rest, hs, hlen, htext⟩ := ih hk
        refine ⟨c :: text, rest, by rw [hs]; rfl, by rw [List.length_cons, hlen], ?_⟩
        intro d hd
        rcases List.mem_cons.mp hd with rfl | hd
        · exact (etagByte_iff d).mpr ⟨hquote, hrange⟩
        · exact htext d hd

variable (t : EntityTag)

/-- A tag at the front is consumed. -/
theorem consumeTag_bytes (rest : Bytes) : consumeTag (t.bytes ++ rest) = (t.bytes, rest) := by
  have hclosing := closing_append t.valid rest
  obtain ⟨weak, text, valid⟩ := t
  have hbody : ∀ mark : Bytes, hasPrefix (mark ++ quote :: (text ++ quote :: rest)) (lit "W/") =
      decide (mark = lit "W/") → mark = lit "W/" ∨ mark = [] →
      consumeTag (mark ++ quote :: (text ++ quote :: rest)) =
        (mark ++ quote :: (text ++ [quote]), rest) := by
    intro mark hmark hcases
    have hstart : (if hasPrefix (mark ++ quote :: (text ++ quote :: rest)) (lit "W/") then 2 else 0) =
        mark.length := by
      rw [hmark]
      rcases hcases with rfl | rfl <;> rfl
    have hsplit : mark ++ quote :: (text ++ quote :: rest) =
        (mark ++ quote :: (text ++ [quote])) ++ rest := by simp
    have hlength : mark.length + 1 + text.length + 1 = (mark ++ quote :: (text ++ [quote])).length := by
      simp only [List.length_append, List.length_cons, List.length_nil]
      omega
    rw [consumeTag]
    simp only [hstart, List.drop_left, ne_eq, not_true, if_false, hclosing]
    rw [hlength, hsplit, List.take_left, List.drop_left]
  have hassoc : ∀ mark : Bytes, (mark ++ quote :: (text ++ [quote])) ++ rest =
      mark ++ quote :: (text ++ quote :: rest) := by simp
  cases weak with
  | true =>
    show consumeTag ((lit "W/" ++ quote :: (text ++ [quote])) ++ rest) = _
    rw [hassoc]
    exact hbody (lit "W/") (by simp [hasPrefix, lit, ch]) (Or.inl rfl)
  | false =>
    show consumeTag (([] ++ quote :: (text ++ [quote])) ++ rest) = _
    rw [hassoc]
    exact hbody [] rfl (Or.inr rfl)

/-- What is consumed is a tag. -/
theorem consumeTag_cases (value : Bytes) : (consumeTag value).1 = [] ∨
    ∃ (t : EntityTag) (rest : Bytes), value = t.bytes ++ rest := by
  unfold consumeTag
  simp only
  split
  · exact Or.inl rfl
  rename_i c rest hdrop
  split
  · exact Or.inl rfl
  rename_i hquote
  rw [ne_eq, not_not] at hquote
  cases hclosing : closing rest with
  | none => exact Or.inl rfl
  | some n =>
    refine Or.inr ?_
    obtain ⟨text, after, hrest, -, htext⟩ := exists_closing hclosing
    by_cases hweak : hasPrefix value (lit "W/") = true
    · rw [if_pos hweak] at hdrop
      refine ⟨⟨true, text, htext⟩, after, ?_⟩
      rw [hasPrefix_iff] at hweak
      obtain ⟨s, hs⟩ := hweak
      rw [← hs, show 2 = (lit "W/").length from rfl, List.drop_left] at hdrop
      rw [← hs, hdrop, hquote, hrest]
      simp [EntityTag.bytes]
    · rw [if_neg hweak] at hdrop
      refine ⟨⟨false, text, htext⟩, after, ?_⟩
      rw [List.drop_zero] at hdrop
      rw [hdrop, hquote, hrest]
      simp [EntityTag.bytes]

theorem bytes_ne_nil : t.bytes ≠ [] := by
  unfold EntityTag.bytes
  simp

theorem cutPrefix_bytes : (cutPrefix t.bytes (lit "W/")).1 = quote :: (t.text ++ [quote]) := by
  obtain ⟨weak, text, valid⟩ := t
  cases weak with
  | true => simp [EntityTag.bytes, cutPrefix, hasPrefix, lit, ch]
  | false => simp [EntityTag.bytes, cutPrefix, hasPrefix, lit, ch, quote]

theorem hasPrefix_bytes : hasPrefix t.bytes (lit "W/") = t.weak := by
  obtain ⟨weak, text, valid⟩ := t
  cases weak with
  | true => simp [EntityTag.bytes, hasPrefix, lit, ch]
  | false => rfl

/-- **Comparison.** -/
theorem tagsEqual_bytes (weak : Bool) (a b : EntityTag) :
    tagsEqual a.bytes b.bytes weak = true ↔ a.Agree weak b := by
  unfold tagsEqual EntityTag.Agree
  cases weak with
  | true =>
    simp only [if_true, beq_iff_eq, cutPrefix_bytes, List.cons.injEq, true_and, Bool.true_eq_false,
      false_implies, and_true]
    exact List.append_left_inj [quote]
  | false =>
    simp only [Bool.false_eq_true, if_false, hasPrefix_bytes, Bool.and_eq_true, Bool.not_eq_true',
      beq_iff_eq, true_implies]
    constructor
    · rintro ⟨⟨ha, hb⟩, heq⟩
      simp only [EntityTag.bytes, ha, hb, Bool.false_eq_true, if_false, List.nil_append, List.cons.injEq,
        true_and, List.append_left_inj] at heq
      exact ⟨heq, ha, hb⟩
    · rintro ⟨htext, ha, hb⟩
      exact ⟨⟨ha, hb⟩, by simp only [EntityTag.bytes, ha, hb, htext]⟩

theorem tagsEqual_nil (weak : Bool) (t : EntityTag) : tagsEqual t.bytes [] weak = false := by
  unfold tagsEqual
  cases weak with
  | true =>
    rw [if_pos rfl, cutPrefix_bytes]
    rfl
  | false =>
    have hne : (t.bytes == []) = false := beq_false_of_ne (bytes_ne_nil t)
    rw [if_neg (by simp), hne, Bool.and_false]

/-! ### Lists -/

/-- A member without a tag. -/
def Member.empty (s : Bytes) (h : ∀ c ∈ s, Blank c) : Member :=
  ⟨s, none, [], h, fun _ hc => absurd hc List.not_mem_nil⟩

variable {value : Bytes} {c : UInt8} {tags : List EntityTag}

/-- A blank before a list. -/
theorem TagList.blank_cons (hc : Blank c) (h : TagList value tags) : TagList (c :: value) tags := by
  have hbefore : ∀ m : Member, ∀ d ∈ c :: m.before, Blank d := by
    intro m d hd
    rcases List.mem_cons.mp hd with rfl | hd
    · exact hc
    · exact m.blank_before d hd
  cases h with
  | last m => exact TagList.last ⟨c :: m.before, m.tag, m.after, hbefore m, m.blank_after⟩
  | cons m hrest => exact TagList.cons ⟨c :: m.before, m.tag, m.after, hbefore m, m.blank_after⟩ hrest

/-- Blanks and commas before a list. -/
theorem TagList.separators_append {l : Bytes} (hl : ∀ c ∈ l, separators.contains c = true)
    (h : TagList value tags) : TagList (l ++ value) tags := by
  induction l with
  | nil => exact h
  | cons c l ih =>
    have hrest := ih fun d hd => hl d (List.mem_cons_of_mem c hd)
    rcases (separators_contains c).mp (hl c List.mem_cons_self) with hc | rfl
    · exact hrest.blank_cons hc
    · exact TagList.cons (Member.empty [] fun _ hd => absurd hd List.not_mem_nil) hrest

theorem head?_bytes_not_blank : ∀ c ∈ t.bytes.head?, ¬ Blank c := by
  intro c hc
  obtain ⟨weak, text, valid⟩ := t
  cases weak <;>
  · rw [← Option.some.inj (Option.mem_def.mp hc)]
    decide

theorem getLast?_bytes : t.bytes.getLast? = some quote := by
  rw [EntityTag.bytes, ← List.cons_append, ← List.append_assoc, List.getLast?_append_of_ne_nil]
  · rfl
  · simp

/-- A member that starts with a blank, without it. -/
theorem Member.drop_first {m : Member} (hc : Blank c) (h : m.bytes = c :: s) :
    ∃ m' : Member, m'.bytes = s ∧ m'.tag = m.tag := by
  obtain ⟨before, tag, after, hbefore, hafter⟩ := m
  cases before with
  | cons d before =>
    rw [Member.bytes, List.cons_append, List.cons.injEq] at h
    exact ⟨⟨before, tag, after, fun e he => hbefore e (List.mem_cons_of_mem d he), hafter⟩, h.2, rfl⟩
  | nil =>
    cases tag with
    | some t =>
      rw [Member.bytes, List.nil_append, Option.elim_some] at h
      have hhead : t.bytes.head? = some c := by
        rw [← List.head?_append_of_ne_nil t.bytes (bytes_ne_nil t), h]
        rfl
      exact absurd hc (head?_bytes_not_blank t c hhead)
    | none =>
      cases after with
      | nil => exact absurd h (by simp [Member.bytes])
      | cons d after =>
        rw [Member.bytes, List.nil_append, Option.elim_none, List.nil_append, List.cons.injEq] at h
        exact ⟨⟨[], none, after, hbefore, fun e he => hafter e (List.mem_cons_of_mem d he)⟩, h.2, rfl⟩

/-- A member that ends with a blank, without it. -/
theorem Member.drop_last {m : Member} (hc : Blank c) (h : m.bytes = s ++ [c]) :
    ∃ m' : Member, m'.bytes = s ∧ m'.tag = m.tag := by
  obtain ⟨before, tag, after, hbefore, hafter⟩ := m
  rcases List.eq_nil_or_concat' after with rfl | ⟨after, d, rfl⟩
  · cases tag with
    | some t =>
      rw [Member.bytes, Option.elim_some, List.append_nil] at h
      have hlast := congrArg List.getLast? h
      rw [List.getLast?_append_of_ne_nil _ (bytes_ne_nil t), getLast?_bytes, List.getLast?_concat] at hlast
      rw [← Option.some.inj hlast] at hc
      exact absurd hc (by decide)
    | none =>
      rw [Member.bytes, Option.elim_none, List.append_nil, List.append_nil] at h
      refine ⟨Member.empty s fun e he => hbefore e ?_, by simp [Member.empty, Member.bytes], rfl⟩
      rw [show before = s ++ [c] from h]
      exact List.mem_append_left _ he
  · rw [Member.bytes, ← List.append_assoc, ← List.append_assoc] at h
    refine ⟨⟨before, tag, after, hbefore, fun e he => hafter e (List.mem_append_left _ he)⟩, ?_, rfl⟩
    rw [Member.bytes, ← List.append_assoc]
    exact (List.append_inj' h rfl).1

/-- A list that starts with a blank, without it. -/
theorem TagList.of_blank_cons (hc : Blank c) (h : TagList (c :: value) tags) :
    TagList value tags := by
  generalize hs : c :: value = s at h
  cases h with
  | last m =>
    obtain ⟨m', hbytes, htag⟩ := m.drop_first hc hs.symm
    rw [← hbytes, ← htag]
    exact TagList.last m'
  | cons m hrest =>
    rename_i rest tags
    cases hm : m.bytes with
    | nil =>
      rw [hm, List.nil_append, List.cons.injEq] at hs
      rw [hs.1] at hc
      exact absurd hc (by decide)
    | cons d bytes =>
      rw [hm, List.cons_append, List.cons.injEq] at hs
      obtain ⟨m', hbytes, htag⟩ := m.drop_first (hs.1 ▸ hc) hm
      rw [hs.2, ← hbytes, ← htag]
      exact TagList.cons m' hrest

/-- A list that ends with a blank, without it. -/
theorem TagList.of_blank_concat (hc : Blank c) (h : TagList (value ++ [c]) tags) :
    TagList value tags := by
  generalize hs : value ++ [c] = s at h
  induction h generalizing value with
  | last m =>
    obtain ⟨m', hbytes, htag⟩ := m.drop_last hc hs.symm
    rw [← hbytes, ← htag]
    exact TagList.last m'
  | cons m hrest ih =>
    rename_i rest tags
    rcases List.eq_nil_or_concat' rest with rfl | ⟨rest, d, rfl⟩
    · have hlast := (List.append_inj' hs rfl).2
      rw [(List.cons.inj hlast).1] at hc
      exact absurd hc (by decide)
    · rw [← List.cons_append, ← List.append_assoc] at hs
      obtain ⟨hvalue, hd⟩ := List.append_inj' hs rfl
      rw [hvalue]
      exact TagList.cons m (ih (by rw [hd]))

theorem TagList.of_blanks_append {l : Bytes} (hl : ∀ c ∈ l, Blank c)
    (h : TagList (l ++ value) tags) : TagList value tags := by
  induction l with
  | nil => exact h
  | cons c l ih =>
    exact ih (fun d hd => hl d (List.mem_cons_of_mem c hd)) (h.of_blank_cons (hl c List.mem_cons_self))

theorem TagList.of_append_blanks {r : Bytes} (hr : ∀ c ∈ r, Blank c)
    (h : TagList (value ++ r) tags) : TagList value tags := by
  induction r using List.reverseRecOn with
  | nil =>
    rw [List.append_nil] at h
    exact h
  | append_singleton r c ih =>
    rw [← List.append_assoc] at h
    exact ih (fun d hd => hr d (List.mem_append_left _ hd))
      (h.of_blank_concat (hr c (List.mem_append_right _ (List.mem_singleton_self c))))

/-- Blanks after a list. -/
theorem TagList.append_blanks {r : Bytes} (hr : ∀ c ∈ r, Blank c) (h : TagList value tags) :
    TagList (value ++ r) tags := by
  induction h with
  | last m =>
    have hafter : ∀ c ∈ m.after ++ r, Blank c := by
      intro c hc
      exact (List.mem_append.mp hc).elim (m.blank_after c) (hr c)
    have hbytes : m.bytes ++ r = (Member.mk m.before m.tag (m.after ++ r) m.blank_before hafter).bytes := by
      simp [Member.bytes]
    rw [hbytes]
    exact TagList.last _
  | cons m hrest ih =>
    rw [List.append_assoc, List.cons_append]
    exact TagList.cons m ih

/-- **Blanks around a list** do not matter. -/
theorem tagList_trimOf (value : Bytes) (tags : List EntityTag) :
    TagList (trimOf blanks value) tags ↔ TagList value tags := by
  obtain ⟨l, r, hvalue, hl, hr⟩ := exists_trimOf blanks value
  have hl' : ∀ c ∈ l, Blank c := fun c hc => (blanks_contains c).mp (hl c hc)
  have hr' : ∀ c ∈ r, Blank c := fun c hc => (blanks_contains c).mp (hr c hc)
  constructor
  · intro h
    rw [hvalue]
    exact (h.append_blanks hr').separators_append fun c hc => (separators_contains c).mpr (Or.inl (hl' c hc))
  · intro h
    rw [hvalue] at h
    exact (h.of_blanks_append hl').of_append_blanks hr'

/-! ### The loop -/

variable {currentTag : Bytes}

/-- A round sees the value without the separators before it. -/
theorem tagLoop_trim {weak : Bool} {fuel : ℕ} {v w : Bytes} {matched anyTag : Bool}
    (h : trimLeftOf separators v = trimLeftOf separators w) :
    tagLoop currentTag weak fuel v matched anyTag = tagLoop currentTag weak fuel w matched anyTag := by
  cases fuel with
  | zero => rfl
  | succ fuel => rw [tagLoop, tagLoop, h]

/-- A round over a tag. -/
theorem tagLoop_tag {weak : Bool} {fuel : ℕ} {matched anyTag : Bool} (rest : Bytes) : tagLoop currentTag weak (fuel + 1) (t.bytes ++ rest) matched anyTag =
      match trimLeftOf blanks rest with
      | [] => tagLoop currentTag weak fuel [] (matched || tagsEqual t.bytes currentTag weak) true
      | c :: rest => if c ≠ ch ',' then (false, false)
        else tagLoop currentTag weak fuel (c :: rest) (matched || tagsEqual t.bytes currentTag weak) true := by
  obtain ⟨c, s, hs⟩ := List.exists_cons_of_ne_nil (bytes_ne_nil t)
  have hhead : c = ch 'W' ∨ c = quote := by
    obtain ⟨weak, text, valid⟩ := t
    cases weak with
    | true => exact Or.inl (List.cons.inj hs).1.symm
    | false => exact Or.inr (List.cons.inj hs).1.symm
  have hsep : separators.contains c = false := by
    rcases hhead with rfl | rfl <;> decide
  have htrim : trimLeftOf separators (t.bytes ++ rest) = t.bytes ++ rest := by
    rw [hs, trimLeftOf, List.cons_append, List.dropWhile_cons_of_neg (by rw [hsep]; simp)]
  have hconsume := consumeTag_bytes t rest
  rw [hs] at hconsume htrim
  rw [tagLoop, hs, htrim]
  simp only [hconsume]
  rw [if_neg (by simp)]

/-- **Completeness.**  On a list the loop runs through every tag. -/
theorem tagLoop_of_tagList {weak : Bool} (h : TagList value tags) : ∀ (fuel : ℕ) (matched anyTag : Bool), value.length < fuel →
      tagLoop currentTag weak fuel value matched anyTag =
        (matched || tags.any fun t => tagsEqual t.bytes currentTag weak, anyTag || !tags.isEmpty) := by
  have hnil : ∀ (fuel : ℕ) (matched anyTag : Bool), 0 < fuel →
      tagLoop currentTag weak fuel [] matched anyTag = (matched, anyTag) := by
    intro fuel matched anyTag hfuel
    cases fuel with
    | zero => exact absurd hfuel (Nat.lt_irrefl 0)
    | succ fuel => rfl
  have hbefore : ∀ (m : Member) (rest : Bytes), trimLeftOf separators (m.before ++ rest) =
      trimLeftOf separators rest := fun m rest =>
    trimLeftOf_append (fun c hc => (separators_contains c).mpr (Or.inl (m.blank_before c hc))) rest
  have hafter : ∀ m : Member, ∀ c ∈ m.after, blanks.contains c = true :=
    fun m c hc => (blanks_contains c).mpr (m.blank_after c hc)
  have hsep : ∀ s : Bytes, (∀ c ∈ s, blanks.contains c = true) → ∀ c ∈ s, separators.contains c = true :=
    fun s hs c hc => (separators_contains c).mpr (Or.inl ((blanks_contains c).mp (hs c hc)))
  induction h with
  | last m =>
    intro fuel matched anyTag hfuel
    obtain ⟨fuel, rfl⟩ := Nat.exists_eq_succ_of_ne_zero (by omega : fuel ≠ 0)
    rw [Member.bytes, tagLoop_trim (hbefore m _)]
    cases htag : m.tag with
    | none =>
      have htrim := trimLeftOf_append (hsep m.after (hafter m)) []
      rw [List.append_nil] at htrim
      rw [Option.elim_none, List.nil_append, tagLoop_trim htrim, hnil _ _ _ (Nat.succ_pos fuel)]
      simp
    | some t =>
      have htrim := trimLeftOf_append (hafter m) []
      rw [List.append_nil] at htrim
      have hpos : 0 < fuel := by
        have hlen := List.length_pos_iff.mpr (bytes_ne_nil t)
        rw [Member.bytes, htag, Option.elim_some, List.length_append, List.length_append] at hfuel
        omega
      rw [Option.elim_some, tagLoop_tag, htrim]
      show tagLoop currentTag weak fuel [] _ _ = _
      rw [hnil _ _ _ hpos]
      simp
  | cons m hrest ih =>
    rename_i rest tags
    intro fuel matched anyTag hfuel
    obtain ⟨fuel, rfl⟩ := Nat.exists_eq_succ_of_ne_zero (by omega : fuel ≠ 0)
    have hcomma := trimLeftOf_comma rest
    rw [List.length_append, List.length_cons] at hfuel
    rw [Member.bytes, List.append_assoc, tagLoop_trim (hbefore m _)]
    cases htag : m.tag with
    | none =>
      rw [Option.elim_none, List.nil_append,
        tagLoop_trim (trimLeftOf_append (hsep m.after (hafter m)) (ch ',' :: rest)), tagLoop_trim hcomma,
        ih _ _ _ (by omega)]
      rfl
    | some t =>
      have htrim : trimLeftOf blanks (m.after ++ ch ',' :: rest) = ch ',' :: rest := by
        rw [trimLeftOf_append (hafter m)]
        rfl
      have hpos : rest.length < fuel := by
        have hlen := List.length_pos_iff.mpr (bytes_ne_nil t)
        rw [Member.bytes, htag, Option.elim_some, List.length_append, List.length_append] at hfuel
        omega
      rw [Option.elim_some, List.append_assoc, tagLoop_tag, htrim]
      simp only [ne_eq, not_true, if_false]
      rw [tagLoop_trim hcomma, ih _ _ _ hpos]
      simp [Bool.or_assoc]

/-- **Soundness.**  What is no list is refused. -/
theorem tagLoop_cases {weak : Bool} (fuel : ℕ) (value : Bytes) (matched anyTag : Bool)
    (hfuel : value.length < fuel) :
    (∃ tags, TagList value tags) ∨
      tagLoop currentTag weak fuel value matched anyTag = (false, false) := by
  induction fuel generalizing value matched anyTag with
  | zero => exact absurd hfuel (Nat.not_lt_zero _)
  | succ fuel ih =>
    obtain ⟨l, hvalue, hl, -⟩ := exists_trimLeftOf separators value
    have hlen := congrArg List.length hvalue
    rw [List.length_append] at hlen
    have hloop : tagLoop currentTag weak (fuel + 1) value matched anyTag =
        tagLoop currentTag weak (fuel + 1) (trimLeftOf separators value) matched anyTag := by
      refine tagLoop_trim ?_
      rw [trimLeftOf, trimLeftOf, List.dropWhile_idempotent]
    suffices hsuffices : (∃ tags, TagList (trimLeftOf separators value) tags) ∨
        tagLoop currentTag weak (fuel + 1) value matched anyTag = (false, false) by
      refine hsuffices.imp_left fun htags => ?_
      obtain ⟨tags, htags⟩ := htags
      refine ⟨tags, ?_⟩
      rw [hvalue]
      exact htags.separators_append hl
    rcases consumeTag_cases (trimLeftOf separators value) with hnone | ⟨t, rest, htag⟩
    · by_cases hempty : trimLeftOf separators value = []
      · rw [hempty]
        exact Or.inl ⟨_, TagList.last (Member.empty [] fun _ hc => absurd hc List.not_mem_nil)⟩
      · refine Or.inr ?_
        rw [tagLoop]
        simp only [if_neg hempty]
        split
        · rfl
        · rename_i tag rest hne hconsume
          rw [hconsume] at hnone
          exact absurd hnone (by simpa using hne)
    · rw [hloop, htag, tagLoop_tag]
      obtain ⟨b, hrest, hb, -⟩ := exists_trimLeftOf blanks rest
      have hb' : ∀ c ∈ b, Blank c := fun c hc => (blanks_contains c).mp (hb c hc)
      have hmember : (Member.mk [] (some t) b (fun _ hc => absurd hc List.not_mem_nil) hb').bytes =
          t.bytes ++ b := rfl
      cases hafter : trimLeftOf blanks rest with
      | nil =>
        rw [hafter, List.append_nil] at hrest
        rw [hrest, ← hmember]
        exact Or.inl ⟨_, TagList.last _⟩
      | cons c s =>
        simp only
        by_cases hc : c = ch ','
        · have hshort : s.length < fuel := by
            have hl1 := congrArg List.length htag
            have hl2 := congrArg List.length hrest
            rw [hafter] at hl2
            rw [List.length_append] at hl1 hl2
            rw [List.length_cons] at hl2
            omega
          have hcomma : trimLeftOf separators (c :: s) = trimLeftOf separators s := by
            rw [hc]
            exact trimLeftOf_comma s
          rw [if_neg (not_not.mpr hc), tagLoop_trim hcomma]
          refine (ih s _ true hshort).imp_left fun htags => ?_
          obtain ⟨tags, htags⟩ := htags
          rw [hrest, hafter, hc, ← List.append_assoc, ← hmember]
          exact ⟨_, TagList.cons _ htags⟩
        · rw [if_pos hc]
          exact Or.inr rfl

/-! ### The whole value -/

/-- The tag `matchTags` compares with. -/
def currentTagOf (current : Bytes) : Bytes :=
  if trimOf blanks (consumeTag (trimOf blanks current)).2 ≠ [] then []
  else (consumeTag (trimOf blanks current)).1

theorem matchTags_eq (value current : Bytes) (weak : Bool) : matchTags value current weak =
    if trimOf blanks value = lit "*" then (true, true)
    else tagLoop (currentTagOf current) weak ((trimOf blanks value).length + 1) (trimOf blanks value)
      false false := rfl

/-- The current tag is the single tag of its field, or empty if there is no such tag. -/
theorem currentTagOf_cases (current : Bytes) :
    (∃ c, SingleTag current c ∧ currentTagOf current = c.bytes) ∨
      (∀ c, ¬ SingleTag current c) ∧ currentTagOf current = [] := by
  have hsingle : ∀ c, SingleTag current c → consumeTag (trimOf blanks current) = (c.bytes, []) := by
    intro c hc
    have hconsume := consumeTag_bytes c []
    rw [List.append_nil] at hconsume
    rw [show trimOf blanks current = c.bytes from hc, hconsume]
  by_cases hex : ∃ c, SingleTag current c
  · obtain ⟨c, hc⟩ := hex
    refine Or.inl ⟨c, hc, ?_⟩
    rw [currentTagOf, hsingle c hc]
    exact if_neg (not_not.mpr rfl)
  · refine Or.inr ⟨not_exists.mp hex, ?_⟩
    rcases consumeTag_cases (trimOf blanks current) with hnone | ⟨t, rest, hvalue⟩
    · rw [currentTagOf, hnone, ite_self]
    · have hconsume := consumeTag_bytes t rest
      rw [← hvalue] at hconsume
      rw [currentTagOf, hconsume, if_pos]
      -- blanks after the tag would stand at the end of a trimmed text
      intro hblank
      obtain ⟨l, r, hrest, hl, hr⟩ := exists_trimOf blanks rest
      rw [hblank, List.nil_append] at hrest
      have hall : ∀ c ∈ rest, blanks.contains c = true := by
        rw [hrest]
        exact fun c hc => (List.mem_append.mp hc).elim (hl c) (hr c)
      rcases List.eq_nil_or_concat' rest with hnil | ⟨init, c, hconcat⟩
      · rw [hnil, List.append_nil] at hvalue
        exact hex ⟨t, hvalue⟩
      · have hlast := getLast?_trimOf blanks current c
        rw [hvalue, hconcat, ← List.append_assoc, List.getLast?_concat] at hlast
        have hin := hall c (by rw [hconcat]; exact List.mem_append_right _ (List.mem_singleton_self c))
        rw [hlast rfl] at hin
        exact absurd hin (by simp)

/-- **Validity.**  `matchTags` accepts `*` and the lists with a tag, and nothing else. -/
theorem matchTags_valid (value current : Bytes) (weak : Bool) :
    (matchTags value current weak).2 = true ↔ ValidTags value := by
  rw [matchTags_eq]
  by_cases hstar : trimOf blanks value = lit "*"
  · rw [if_pos hstar]
    exact iff_of_true rfl (Or.inl hstar)
  rw [if_neg hstar]
  constructor
  · intro hvalid
    rcases tagLoop_cases ((trimOf blanks value).length + 1) (trimOf blanks value) false false
      (Nat.lt_succ_self _) with ⟨tags, htags⟩ | hrefused
    · rw [tagLoop_of_tagList htags _ _ _ (Nat.lt_succ_self _)] at hvalid
      refine Or.inr ⟨tags, (tagList_trimOf value tags).mp htags, ?_⟩
      simpa using hvalid
    · rw [hrefused] at hvalid
      exact absurd hvalid (by simp)
  · intro hvalid
    obtain ⟨tags, htags, hne⟩ := hvalid.resolve_left hstar
    rw [tagLoop_of_tagList ((tagList_trimOf value tags).mpr htags) _ _ _ (Nat.lt_succ_self _)]
    simpa using hne

theorem tagsEqual_currentTagOf (current : Bytes) (weak : Bool) (t : EntityTag) :
    tagsEqual t.bytes (currentTagOf current) weak = true ↔ ∃ c, SingleTag current c ∧ t.Agree weak c := by
  rcases currentTagOf_cases current with ⟨c, hc, htag⟩ | ⟨hnone, htag⟩
  · rw [htag, tagsEqual_bytes]
    refine ⟨fun h => ⟨c, hc, h⟩, fun h => ?_⟩
    obtain ⟨d, hd, hagree⟩ := h
    have hbytes : c.bytes = d.bytes := by rw [← show trimOf blanks current = c.bytes from hc]; exact hd
    rw [← tagsEqual_bytes, hbytes, tagsEqual_bytes]
    exact hagree
  · rw [htag, tagsEqual_nil]
    exact iff_of_false (by simp) fun h => h.elim fun c hc => hnone c hc.1

/-- **Matching.**  `matchTags` reports a match exactly for `*` and for lists with a member that agrees
with the current tag. -/
theorem matchTags_match (value current : Bytes) (weak : Bool) :
    (matchTags value current weak).1 = true ↔ TagsMatch value current weak := by
  rw [matchTags_eq]
  by_cases hstar : trimOf blanks value = lit "*"
  · rw [if_pos hstar]
    exact iff_of_true rfl (Or.inl hstar)
  rw [if_neg hstar]
  have hany : ∀ tags : List EntityTag, (tags.any fun t => tagsEqual t.bytes (currentTagOf current) weak) =
      true ↔ ∃ t ∈ tags, ∃ c, SingleTag current c ∧ t.Agree weak c := by
    intro tags
    simp only [List.any_eq_true, tagsEqual_currentTagOf]
  constructor
  · intro hmatch
    rcases tagLoop_cases ((trimOf blanks value).length + 1) (trimOf blanks value) false false
      (Nat.lt_succ_self _) with ⟨tags, htags⟩ | hrefused
    · rw [tagLoop_of_tagList htags _ _ _ (Nat.lt_succ_self _), Bool.false_or] at hmatch
      exact Or.inr ⟨tags, (tagList_trimOf value tags).mp htags, (hany tags).mp hmatch⟩
    · rw [hrefused] at hmatch
      exact absurd hmatch (by simp)
  · intro hmatch
    obtain ⟨tags, htags, hmember⟩ := hmatch.resolve_left hstar
    rw [tagLoop_of_tagList ((tagList_trimOf value tags).mpr htags) _ _ _ (Nat.lt_succ_self _),
      Bool.false_or]
    exact (hany tags).mpr hmember

end Statute.Precondition
