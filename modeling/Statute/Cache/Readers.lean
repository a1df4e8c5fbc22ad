import Statute.Cache.Directives

/-!
# The two readers of a Cache-Control field

`cacheControlFieldAllows` checks the syntax of a field, and `cacheFreshnessDirectiveNext` reads the
directives of a field that passed.  They are two scanners with their own trimming and end conditions, and a
lifetime is only trustworthy if both cut the field at the same bytes.

* `walkDirective`, `fieldWalk` — the validator with a record of the directives it passes over;
  `fieldWalk_isSome` removes the record;
* `next_of_walkDirective` — in one round both readers cut off the same directive;
* `directive_readers` — over a whole field they give the same list.  The one exception is a field of
  separators only, where the validator sees no directive and the reader one without a name.
-/

namespace Statute.Cache

open Statute.Base

/-! ### The validator with a record -/

/-- One round of `cacheControlFieldAllows` on a text that starts with a directive: its name, its raw
argument, and the text after the blanks that follow it. -/
def walkDirective (value : Bytes) : Option (Bytes × Bytes × Bytes) :=
  let (name, rest) := cutAny (lit "=, \t") value
  if !validHeaderFieldName name then none
  else
    let rest := trimLeftOf (lit " \t") rest
    let (argument, rest, ok) :=
      if hasPrefix rest (lit "=") then
        let start := trimLeftOf (lit " \t") (rest.drop 1)
        let (rest, ok) := consumeCacheArgument start
        (start.take (start.length - rest.length), trimLeftOf (lit " \t") rest, ok)
      else ([], rest, true)
    if !ok || (rest != [] && rest.head? != some (ch ',')) then none else some (name, argument, rest)

/-- `cacheControlFieldAllows` without forbidden names, with the names and raw arguments it walks over. -/
def fieldWalk : ℕ → Bytes → Option (List (Bytes × Bytes))
  | 0, _ => none
  | fuel + 1, value =>
    let value := trimLeftOf (lit " \t,") value
    if value = [] then some []
    else
      match walkDirective value with
      | none => none
      | some (name, argument, rest) => (fieldWalk fuel rest).map ((name, argument) :: ·)

def walkedDirectives (value : Bytes) : Option (List (Bytes × Bytes)) := fieldWalk (value.length + 1) value

variable {value : Bytes}

/-- A round of the validator is a round of the walk. -/
theorem fieldAllows_succ (fuel : ℕ) (hvalue : trimLeftOf (lit " \t,") value ≠ []) :
    fieldAllows [] (fuel + 1) value = match walkDirective (trimLeftOf (lit " \t,") value) with
      | none => false
      | some (_, _, rest) => fieldAllows [] fuel rest := by
  rw [fieldAllows, walkDirective]
  simp only [if_neg hvalue]
  obtain ⟨name, rest⟩ := cutAny (lit "=, \t") (trimLeftOf (lit " \t,") value)
  simp only [List.any_nil, Bool.or_false]
  cases hname : validHeaderFieldName name with
  | false => rfl
  | true =>
    simp only [Bool.not_true, Bool.false_eq_true, if_false]
    by_cases hequals : hasPrefix (trimLeftOf (lit " \t") rest) (lit "=") = true
    · simp only [if_pos hequals]
      obtain ⟨after, ok⟩ := consumeCacheArgument (trimLeftOf (lit " \t") ((trimLeftOf (lit " \t") rest).drop 1))
      simp only
      split
      · rfl
      · rfl
    · simp only [if_neg hequals]
      split
      · rfl
      · rfl

/-- Without its record the walk is the validator. -/
theorem fieldWalk_isSome (fuel : ℕ) (value : Bytes) :
    (fieldWalk fuel value).isSome = fieldAllows [] fuel value := by
  induction fuel generalizing value with
  | zero => rfl
  | succ fuel ih =>
    by_cases hvalue : trimLeftOf (lit " \t,") value = []
    · rw [fieldWalk, fieldAllows]
      simp only [if_pos hvalue, Option.isSome_some]
    · rw [fieldAllows_succ fuel hvalue, fieldWalk]
      simp only [if_neg hvalue]
      cases walkDirective (trimLeftOf (lit " \t,") value) with
      | none => rfl
      | some parts =>
        obtain ⟨name, argument, rest⟩ := parts
        simp only [Option.isSome_map, ih rest]

/-! ### One directive -/

theorem trimLeftOf_trimLeftOf {few many : Bytes} (h : ∀ c, few.contains c = true → many.contains c = true)
    (s : Bytes) : trimLeftOf many (trimLeftOf few s) = trimLeftOf many s := by
  induction s with
  | nil => rfl
  | cons c s ih =>
    by_cases hc : few.contains c = true
    · rw [trimLeftOf, trimLeftOf, trimLeftOf, List.dropWhile_cons_of_pos hc, List.dropWhile_cons_of_pos (h c hc)]
      exact ih
    · rw [show trimLeftOf few (c :: s) = c :: s from List.dropWhile_cons_of_neg hc]

theorem trimLeftOf_idem (cutset s : Bytes) : trimLeftOf cutset (trimLeftOf cutset s) = trimLeftOf cutset s :=
  trimLeftOf_trimLeftOf (fun _ h => h) s

theorem trimLeftOf_blanks (s : Bytes) : trimLeftOf (lit " \t,") (trimLeftOf (lit " \t") s) = trimLeftOf (lit " \t,") s := by
  apply trimLeftOf_trimLeftOf
  intro c hc
  rw [List.contains_iff_mem] at hc ⊢
  exact List.mem_append_left [ch ','] hc

/-- A text without a mark is cut at its end. -/
theorem cutAny_snd_eq_nil {marks s : Bytes} (h : (cutAny marks s).2 = []) : (cutAny marks s).1 = s := by
  have happend : (cutAny marks s).1 ++ (cutAny marks s).2 = s := List.takeWhile_append_dropWhile
  rw [h, List.append_nil] at happend
  exact happend

/-- What one round of the validator finds. -/
theorem walkDirective_cases {v name argument rest : Bytes} (h : walkDirective v = some (name, argument, rest)) :
    (cutAny (lit "=, \t") v).1 = name ∧ validHeaderFieldName name = true ∧
    ((hasPrefix (trimLeftOf (lit " \t") (cutAny (lit "=, \t") v).2) (lit "=") = false ∧ argument = [] ∧
        rest = trimLeftOf (lit " \t") (cutAny (lit "=, \t") v).2) ∨
      hasPrefix (trimLeftOf (lit " \t") (cutAny (lit "=, \t") v).2) (lit "=") = true ∧
      ∃ start, start = trimLeftOf (lit " \t") ((trimLeftOf (lit " \t") (cutAny (lit "=, \t") v).2).drop 1) ∧
        argument = start.take (start.length - (consumeCacheArgument start).1.length) ∧
        rest = trimLeftOf (lit " \t") (consumeCacheArgument start).1) := by
  rw [walkDirective] at h
  generalize cutAny (lit "=, \t") v = c at h ⊢
  obtain ⟨word, after⟩ := c
  simp only at h ⊢
  cases hname : validHeaderFieldName word with
  | false =>
    rw [hname] at h
    cases h
  | true =>
    rw [hname] at h
    simp only [Bool.not_true, Bool.false_eq_true, if_false] at h
    cases hequals : hasPrefix (trimLeftOf (lit " \t") after) (lit "=") with
    | false =>
      simp only [hequals, Bool.false_eq_true, if_false] at h
      split at h
      · cases h
      · cases h
        exact ⟨rfl, hname, Or.inl ⟨rfl, rfl, rfl⟩⟩
    | true =>
      simp only [hequals, if_true] at h
      generalize hstart : trimLeftOf (lit " \t") ((trimLeftOf (lit " \t") after).drop 1) = start at h
      split at h
      · cases h
      · simp only [Option.some.injEq, Prod.mk.injEq] at h
        obtain ⟨rfl, rfl, rfl⟩ := h
        exact ⟨rfl, hname, Or.inr ⟨rfl, start, rfl, rfl, rfl⟩⟩

/-- **One round.**  Where the validator walks over a directive, the reader cuts off the same name and the
same argument, and goes on behind the separators that follow. -/
theorem next_of_walkDirective {name argument rest : Bytes}
    (h : walkDirective (trimLeftOf (lit " \t,") value) = some (name, argument, rest)) :
    cacheFreshnessDirectiveNext value = (name, argument, trimLeftOf (lit " \t,") rest) := by
  obtain ⟨hname, -, hargument⟩ := walkDirective_cases h
  have hend := @cutAny_snd_eq_nil (lit "=, \t") (trimLeftOf (lit " \t,") value)
  rw [cacheFreshnessDirectiveNext]
  generalize cutAny (lit "=, \t") (trimLeftOf (lit " \t,") value) = c at hname hargument hend ⊢
  obtain ⟨word, after⟩ := c
  simp only at hname hargument hend ⊢
  subst hname
  rcases hargument with ⟨hequals, rfl, rfl⟩ | ⟨hequals, start, rfl, rfl, rfl⟩
  · split
    · -- the name is the rest of the field
      rename_i hafter
      rw [hafter, ← hend hafter]
      rfl
    · rw [if_neg (by rw [hequals]; exact Bool.false_ne_true)]
  · split
    · rename_i hafter
      rw [hafter] at hequals
      cases hequals
    · rw [trimLeftOf_blanks]

/-! ### The whole field -/

/-- The loop of `cacheFreshnessDirectives` over one value: the directives it reads until the value is empty,
or `none` if it is not empty after that many rounds. -/
def readDirectives : ℕ → Bytes → Option (List (Bytes × Bytes))
  | 0, value => if value = [] then some [] else none
  | fuel + 1, value =>
    if value = [] then some []
    else
      let (name, argument, rest) := cacheFreshnessDirectiveNext value
      (readDirectives fuel rest).map ((name, argument) :: ·)

theorem readDirectives_nil (fuel : ℕ) : readDirectives fuel [] = some [] := by
  cases fuel <;> rfl

theorem fieldWalk_trim (fuel : ℕ) (value : Bytes) :
    fieldWalk fuel (trimLeftOf (lit " \t,") value) = fieldWalk fuel value := by
  cases fuel with
  | zero => rfl
  | succ fuel => rw [fieldWalk, fieldWalk, trimLeftOf_idem]

theorem length_of_walkDirective {v name argument rest : Bytes}
    (h : walkDirective v = some (name, argument, rest)) : rest.length < v.length := by
  obtain ⟨hname, hvalid, hargument⟩ := walkDirective_cases h
  have hcut := length_cutAny (lit "=, \t") v
  have hafter := length_trimLeftOf_le (lit " \t") (cutAny (lit "=, \t") v).2
  have hpos : 0 < name.length := by
    rw [List.length_pos_iff]
    rintro rfl
    cases hvalid
  rw [hname] at hcut
  rcases hargument with ⟨-, -, rfl⟩ | ⟨-, start, hstart, -, rfl⟩
  · omega
  · have hrest := length_trimLeftOf_le (lit " \t") (consumeCacheArgument start).1
    have hconsume := length_consumeCacheArgument_le start
    have htrim := length_trimLeftOf_le (lit " \t") ((trimLeftOf (lit " \t") (cutAny (lit "=, \t") v).2).drop 1)
    rw [← hstart, List.length_drop] at htrim
    omega

variable {directives : List (Bytes × Bytes)}

/-- **The run.**  From a text that is empty or starts with a directive, the reader ends and gives the
directives of the walk. -/
theorem readDirectives_of_fieldWalk {n fuel : ℕ} (hwalk : fieldWalk n value = some directives)
    (hstart : trimLeftOf (lit " \t,") value = [] → value = []) (hfuel : value.length ≤ fuel) :
    readDirectives fuel value = some directives := by
  induction n generalizing fuel value directives with
  | zero => cases hwalk
  | succ n ih =>
    rw [fieldWalk] at hwalk
    by_cases hvalue : trimLeftOf (lit " \t,") value = []
    · rw [if_pos hvalue] at hwalk
      cases hwalk
      rw [hstart hvalue]
      exact readDirectives_nil fuel
    · rw [if_neg hvalue] at hwalk
      cases hround : walkDirective (trimLeftOf (lit " \t,") value) with
      | none =>
        rw [hround] at hwalk
        cases hwalk
      | some parts =>
        obtain ⟨name, argument, rest⟩ := parts
        rw [hround] at hwalk
        obtain ⟨others, hothers, rfl⟩ := Option.map_eq_some_iff.mp hwalk
        have hne : value ≠ [] := by
          rintro rfl
          exact hvalue rfl
        have hlength := length_of_walkDirective hround
        have htrim := length_trimLeftOf_le (lit " \t,") value
        have hrest := length_trimLeftOf_le (lit " \t,") rest
        cases fuel with
        | zero => omega
        | succ fuel =>
          rw [readDirectives, if_neg hne, next_of_walkDirective hround]
          simp only
          -- the reader goes on behind the separators, which the walk would drop itself
          rw [ih ((fieldWalk_trim n rest).trans hothers) (fun h => by rwa [trimLeftOf_idem] at h) (by omega)]
          rfl

/-- A text of separators only is read as one directive without a name. -/
theorem readDirectives_separators {fuel : ℕ} (hvalue : value ≠ [])
    (hblank : trimLeftOf (lit " \t,") value = []) (hfuel : value.length ≤ fuel) :
    readDirectives fuel value = some [([], [])] := by
  cases fuel with
  | zero => exact absurd (List.length_eq_zero_iff.mp (Nat.le_zero.mp hfuel)) hvalue
  | succ fuel =>
    have hnext : cacheFreshnessDirectiveNext value = ([], [], []) := by
      rw [cacheFreshnessDirectiveNext, hblank]
      rfl
    rw [readDirectives, if_neg hvalue, hnext]
    simp only [readDirectives_nil, Option.map_some]

/-- A field of separators only is the one on which the two lists differ. -/
theorem readDirectives_of_walked {fuel : ℕ} (hwalk : walkedDirectives value = some directives)
    (hfuel : value.length ≤ fuel) :
    readDirectives fuel value =
      some (if value ≠ [] ∧ trimLeftOf (lit " \t,") value = [] then [([], [])] else directives) := by
  split
  · rename_i hblank
    exact readDirectives_separators hblank.1 hblank.2 hfuel
  · rename_i hother
    apply readDirectives_of_fieldWalk hwalk _ hfuel
    intro hblank
    by_contra hne
    exact hother ⟨hne, hblank⟩

/-! ### What the lifetimes are read from -/

/-- The switch of `cacheFreshnessDirectives`. -/
def noteDirective (found : Directive × Directive) (d : Bytes × Bytes) : Directive × Directive :=
  if equalFold d.1 (lit "s-maxage") then ({ value := d.2, count := found.1.count + 1 }, found.2)
  else if equalFold d.1 (lit "max-age") then (found.1, { value := d.2, count := found.2.count + 1 })
  else found

theorem valueDirectives_of_read {fuel : ℕ} (h : readDirectives fuel value = some directives)
    (found : Directive × Directive) :
    valueDirectives fuel found value = directives.foldl noteDirective found := by
  induction fuel generalizing value directives found with
  | zero =>
    rw [readDirectives] at h
    split at h
    · cases h
      rfl
    · cases h
  | succ fuel ih =>
    rw [readDirectives] at h
    rw [valueDirectives]
    split at h
    · rename_i hnil
      cases h
      rw [if_pos hnil]
      rfl
    · rename_i hne
      obtain ⟨others, hothers, rfl⟩ := Option.map_eq_some_iff.mp h
      rw [if_neg hne, List.foldl_cons, ← ih hothers]
      rfl

/-- The reader's directive without a name is neither of the two that give a lifetime. -/
theorem valueDirectives_of_walked (h : walkedDirectives value = some directives)
    (found : Directive × Directive) :
    valueDirectives (value.length + 1) found value = directives.foldl noteDirective found := by
  rw [valueDirectives_of_read (readDirectives_of_walked h (Nat.le_succ _))]
  split
  · rename_i hblank
    rw [walkedDirectives, fieldWalk, if_pos hblank.2] at h
    cases h
    rfl
  · rfl

/-! ### The two readers -/

/-- **The readers agree.**  The reader ends on every field the validator accepts.  A field of separators
only gives it one directive without a name, where the validator sees none; every other field gives exactly
the names and raw arguments the validator walked over, in their order.  The lifetimes of a field are those
among the directives the validator walked over. -/
theorem directive_readers (value : Bytes) (h : cacheControlFieldAllows value [] = true) :
    ∃ directives, walkedDirectives value = some directives ∧
      (∀ fuel, value.length ≤ fuel → readDirectives fuel value =
        some (if value ≠ [] ∧ trimLeftOf (lit " \t,") value = [] then [([], [])] else directives)) ∧
      ∀ found, valueDirectives (value.length + 1) found value = directives.foldl noteDirective found := by
  obtain ⟨directives, hwalk⟩ := Option.isSome_iff_exists.mp ((fieldWalk_isSome _ value).trans h)
  exact ⟨directives, hwalk, fun fuel hfuel => readDirectives_of_walked hwalk hfuel,
    valueDirectives_of_walked hwalk⟩

/-- An extension whose quoted argument holds a comma, an equals sign and an escaped quote. -/
def quotedField : Bytes := lit "ext = \"a,max-age=9\\\"\" ,, Max-Age=60\t, no-cache"

theorem directive_readers_quoted :
    cacheControlFieldAllows quotedField [] = true ∧ readDirectives 60 quotedField =
      some [(lit "ext", lit "\"a,max-age=9\\\"\""), (lit "Max-Age", lit "60"), (lit "no-cache", [])] := by
  have hrun : cacheControlFieldAllows quotedField [] = true ∧ quotedField.length ≤ 60 ∧
      ¬ (quotedField ≠ [] ∧ trimLeftOf (lit " \t,") quotedField = []) ∧ walkedDirectives quotedField =
        some [(lit "ext", lit "\"a,max-age=9\\\"\""), (lit "Max-Age", lit "60"), (lit "no-cache", [])] := by
    decide +kernel
  obtain ⟨hallows, hfuel, hother, hwalked⟩ := hrun
  obtain ⟨directives, hwalk, hread, -⟩ := directive_readers quotedField hallows
  refine ⟨hallows, ?_⟩
  rw [hread 60 hfuel, if_neg hother, ← hwalk, hwalked]

/-- A field that is one comma has no directive for the validator and one for the reader. -/
theorem separator_read_as_directive :
    cacheControlFieldAllows (lit ",") [] = true ∧ walkedDirectives (lit ",") = some [] ∧
      ∀ fuel, 1 ≤ fuel → readDirectives fuel (lit ",") = some [([], [])] :=
  ⟨by decide, by decide, fun _ hfuel => readDirectives_separators (by decide) (by decide) hfuel⟩

end Statute.Cache
