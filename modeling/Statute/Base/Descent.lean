import Mathlib.Data.List.Basic
import Mathlib.Tactic

/-!
# Recursive descent over two infix levels

The grammar `or := and ("||" and)*`, `and := term ("&&" term)*`,
`term := "!" term | "(" or ")" | leaf`, over an arbitrary token type.  A `Grammar` says which
tokens are the operators and how a leaf is read; an `Algebra` says what the parser builds.

* `parseOr` and its companions recurse on fuel; `error none` is the out-of-fuel mark and
  `parseOr_ne_fuel` shows that the fuel `parse` supplies never runs out;
* `parse_map`: parsing commutes with every algebra homomorphism, so a parser that forgets part of
  the tree accepts the same texts and builds the image of the full tree;
* `parse_refines`: a grammar that reads more operands parses every stream alike.
-/

namespace Statute.Base

/-- The tokens of a two-level infix grammar.  `leaf` reads one operand whose first token has been
taken off the stream, and never puts tokens back. -/
structure Grammar (T C ε : Type) where
  isOr : T → Bool
  isAnd : T → Bool
  isNot : T → Bool
  isOpen : T → Bool
  isClose : T → Bool
  leaf : T → List T → Except ε (C × List T)
  unexpectedEnd : ε
  expectedClose : Option T → ε
  trailing : T → ε
  leaf_le : ∀ t rest c rest', leaf t rest = .ok (c, rest') → rest'.length ≤ rest.length

/-- What a parser builds from operators and leaves. -/
structure Algebra (C E : Type) where
  or : E → E → E
  and : E → E → E
  not : E → E
  leaf : C → E

variable {T C ε E F : Type}

mutual

/-- `or := and ("||" and)*`. -/
def parseOr (G : Grammar T C ε) (A : Algebra C E) : ℕ → List T → Except (Option ε) (E × List T)
  | 0, _ => .error none
  | n + 1, toks =>
    match parseAnd G A n toks with
    | .error e => .error e
    | .ok (left, rest) => orTail G A n left rest

/-- The loop that folds `"||" and` onto the left operand. -/
def orTail (G : Grammar T C ε) (A : Algebra C E) :
    ℕ → E → List T → Except (Option ε) (E × List T)
  | 0, _, _ => .error none
  | _ + 1, left, [] => .ok (left, [])
  | n + 1, left, t :: rest =>
    if G.isOr t then
      match parseAnd G A n rest with
      | .error e => .error e
      | .ok (right, rest') => orTail G A n (A.or left right) rest'
    else .ok (left, t :: rest)

/-- `and := term ("&&" term)*`. -/
def parseAnd (G : Grammar T C ε) (A : Algebra C E) : ℕ → List T → Except (Option ε) (E × List T)
  | 0, _ => .error none
  | n + 1, toks =>
    match parseTerm G A n toks with
    | .error e => .error e
    | .ok (left, rest) => andTail G A n left rest

/-- The loop that folds `"&&" term` onto the left operand. -/
def andTail (G : Grammar T C ε) (A : Algebra C E) :
    ℕ → E → List T → Except (Option ε) (E × List T)
  | 0, _, _ => .error none
  | _ + 1, left, [] => .ok (left, [])
  | n + 1, left, t :: rest =>
    if G.isAnd t then
      match parseTerm G A n rest with
      | .error e => .error e
      | .ok (right, rest') => andTail G A n (A.and left right) rest'
    else .ok (left, t :: rest)

def parseTerm (G : Grammar T C ε) (A : Algebra C E) : ℕ → List T → Except (Option ε) (E × List T)
  | 0, _ => .error none
  | _ + 1, [] => .error (some G.unexpectedEnd)
  | n + 1, t :: rest =>
    if G.isNot t then
      match parseTerm G A n rest with
      | .error e => .error e
      | .ok (e, rest') => .ok (A.not e, rest')
    else if G.isOpen t then
      match parseOr G A n rest with
      | .error e => .error e
      | .ok (e, c :: rest') =>
        if G.isClose c then .ok (e, rest') else .error (some (G.expectedClose (some c)))
      | .ok (_, []) => .error (some (G.expectedClose none))
    else
      match G.leaf t rest with
      | .error e => .error (some e)
      | .ok (c, rest') => .ok (A.leaf c, rest')

end

/-- Parse a whole token stream. -/
def parse (G : Grammar T C ε) (A : Algebra C E) (toks : List T) : Except ε E :=
  match parseOr G A (4 * toks.length + 3) toks with
  | .ok (e, []) => .ok e
  | .ok (_, t :: _) => .error (G.trailing t)
  | .error (some e) => .error e
  | .error none => .error G.unexpectedEnd

/-! ### Progress and fuel -/

/-- A call leaves fewer than `room` tokens, and it does not run out of fuel where that is `enough`. -/
def Fits (room : ℕ) (enough : Prop) (r : Except (Option ε) (E × List T)) : Prop :=
  match r with
  | .ok (_, rest) => rest.length < room
  | .error e => enough → e ≠ none

theorem Fits.mono {room room' : ℕ} {enough enough' : Prop} {r : Except (Option ε) (E × List T)}
    (h : Fits room enough r) (hroom : room ≤ room') (henough : enough' → enough) :
    Fits room' enough' r := by
  rcases r with e | ⟨e, rest⟩
  · exact fun h' => h (henough h')
  · exact lt_of_lt_of_le h hroom

/-- One fuel level of the parser: every successful call leaves fewer tokens, and no call runs out
of fuel on a stream its fuel is meant for. -/
structure Bounded (G : Grammar T C ε) (A : Algebra C E) (n : ℕ) : Prop where
  or : ∀ toks, Fits toks.length (4 * toks.length + 3 ≤ n) (parseOr G A n toks)
  orTail : ∀ l toks, Fits (toks.length + 1) (4 * toks.length + 1 ≤ n) (orTail G A n l toks)
  and : ∀ toks, Fits toks.length (4 * toks.length + 2 ≤ n) (parseAnd G A n toks)
  andTail : ∀ l toks, Fits (toks.length + 1) (4 * toks.length + 1 ≤ n) (andTail G A n l toks)
  term : ∀ toks, Fits toks.length (4 * toks.length + 1 ≤ n) (parseTerm G A n toks)

variable (G : Grammar T C ε)

theorem bounded_succ (A : Algebra C E) (n : ℕ) (ih : Bounded G A n) :
    Bounded G A (n + 1) where
  or toks := by
    have hand := ih.and toks
    rw [parseOr]
    generalize parseAnd G A n toks = r at hand ⊢
    rcases r with e | ⟨l, rest⟩
    · exact fun h => hand (by omega)
    · exact (ih.orTail l rest).mono hand (by simp only [Fits] at hand; omega)
  orTail l toks := by
    cases toks with
    | nil => exact Nat.zero_lt_one
    | cons t ts =>
      have hand := ih.and ts
      rw [orTail, List.length_cons]
      split
      · generalize parseAnd G A n ts = r at hand ⊢
        rcases r with e | ⟨r, rest⟩
        · exact fun h => hand (by omega)
        · simp only [Fits] at hand
          exact (ih.orTail _ rest).mono (by omega) (by omega)
      · exact Nat.lt_succ_self _
  and toks := by
    have hterm := ih.term toks
    rw [parseAnd]
    generalize parseTerm G A n toks = r at hterm ⊢
    rcases r with e | ⟨l, rest⟩
    · exact fun h => hterm (by omega)
    · exact (ih.andTail l rest).mono hterm (by simp only [Fits] at hterm; omega)
  andTail l toks := by
    cases toks with
    | nil => exact Nat.zero_lt_one
    | cons t ts =>
      have hterm := ih.term ts
      rw [andTail, List.length_cons]
      split
      · generalize parseTerm G A n ts = r at hterm ⊢
        rcases r with e | ⟨r, rest⟩
        · exact fun h => hterm (by omega)
        · simp only [Fits] at hterm
          exact (ih.andTail _ rest).mono (by omega) (by omega)
      · exact Nat.lt_succ_self _
  term toks := by
    cases toks with
    | nil => exact fun _ => Option.some_ne_none _
    | cons t ts =>
      have hterm := ih.term ts
      have hor := ih.or ts
      rw [parseTerm, List.length_cons]
      split
      · generalize parseTerm G A n ts = r at hterm ⊢
        rcases r with e | ⟨e, rest⟩
        · exact fun h => hterm (by omega)
        · exact Nat.lt_succ_of_lt hterm
      · split
        · generalize parseOr G A n ts = r at hor ⊢
          rcases r with e | ⟨e, _ | ⟨c, rest⟩⟩
          · exact fun h => hor (by omega)
          · exact fun _ => Option.some_ne_none _
          · simp only [Fits, List.length_cons] at hor ⊢
            split
            · rename_i heq
              split at heq <;> cases heq
              omega
            · rename_i heq
              split at heq <;> cases heq
              exact fun _ => Option.some_ne_none _
        · cases hleaf : G.leaf t ts with
          | error e => exact fun _ => Option.some_ne_none _
          | ok r => exact Nat.lt_succ_of_le (G.leaf_le _ _ _ _ hleaf)

theorem bounded (A : Algebra C E) (n : ℕ) : Bounded G A n := by
  induction n with
  | zero =>
    refine ⟨?_, ?_, ?_, ?_, ?_⟩
    all_goals intros; simp [Fits, parseOr, orTail, parseAnd, andTail, parseTerm]
  | succ n ih => exact bounded_succ G A n ih

/-- **The fuel is enough.**  The run that `parse` starts never reports the out-of-fuel mark. -/
theorem parseOr_ne_fuel (A : Algebra C E) (toks : List T) :
    parseOr G A (4 * toks.length + 3) toks ≠ .error none := by
  intro h
  have hfits := (bounded G A (4 * toks.length + 3)).or toks
  rw [h] at hfits
  exact hfits le_rfl rfl

/-! ### Homomorphisms -/

/-- `h` carries the constructions of `A` to those of `B`. -/
structure Hom (A : Algebra C E) (B : Algebra C F) (h : E → F) : Prop where
  or : ∀ a b, h (A.or a b) = B.or (h a) (h b)
  and : ∀ a b, h (A.and a b) = B.and (h a) (h b)
  not : ∀ a, h (A.not a) = B.not (h a)
  leaf : ∀ c, h (A.leaf c) = B.leaf c

/-- Apply `h` to the tree of a parse result and leave the rest of the stream alone. -/
def mapResult (h : E → F) : Except (Option ε) (E × List T) → Except (Option ε) (F × List T)
  | .error e => .error e
  | .ok (e, rest) => .ok (h e, rest)

/-- One fuel level of the commutation. -/
structure Commutes (G : Grammar T C ε) (A : Algebra C E) (B : Algebra C F) (h : E → F)
    (n : ℕ) : Prop where
  or : ∀ toks, parseOr G B n toks = mapResult h (parseOr G A n toks)
  orTail : ∀ l toks, orTail G B n (h l) toks = mapResult h (orTail G A n l toks)
  and : ∀ toks, parseAnd G B n toks = mapResult h (parseAnd G A n toks)
  andTail : ∀ l toks, andTail G B n (h l) toks = mapResult h (andTail G A n l toks)
  term : ∀ toks, parseTerm G B n toks = mapResult h (parseTerm G A n toks)

variable {A : Algebra C E}

theorem commutes_succ {B : Algebra C F} {h : E → F} (hom : Hom A B h) (n : ℕ)
    (ih : Commutes G A B h n) : Commutes G A B h (n + 1) where
  or := by
    intro toks
    simp only [parseOr, ih.and]
    cases parseAnd G A n toks with
    | error e => rfl
    | ok r => exact ih.orTail r.1 r.2
  orTail := by
    intro l toks
    cases toks with
    | nil => rfl
    | cons t ts =>
      simp only [orTail, ih.and]
      split
      · cases parseAnd G A n ts with
        | error e => rfl
        | ok r =>
          simp only [mapResult, ← hom.or]
          exact ih.orTail (A.or l r.1) r.2
      · rfl
  and := by
    intro toks
    simp only [parseAnd, ih.term]
    cases parseTerm G A n toks with
    | error e => rfl
    | ok r => exact ih.andTail r.1 r.2
  andTail := by
    intro l toks
    cases toks with
    | nil => rfl
    | cons t ts =>
      simp only [andTail, ih.term]
      split
      · cases parseTerm G A n ts with
        | error e => rfl
        | ok r =>
          simp only [mapResult, ← hom.and]
          exact ih.andTail (A.and l r.1) r.2
      · rfl
  term := by
    intro toks
    cases toks with
    | nil => rfl
    | cons t ts =>
      simp only [parseTerm, ih.term, ih.or]
      split
      · cases parseTerm G A n ts with
        | error e => rfl
        | ok r => simp only [mapResult, hom.not]
      · split
        · rcases parseOr G A n ts with e | ⟨e, _ | ⟨c, rest⟩⟩
          · rfl
          · rfl
          · simp only [mapResult]
            split <;> rfl
        · cases G.leaf t ts with
          | error e => rfl
          | ok r => simp only [mapResult, hom.leaf]

theorem commutes {B : Algebra C F} {h : E → F} (hom : Hom A B h) (n : ℕ) : Commutes G A B h n := by
  induction n with
  | zero => exact ⟨fun _ => rfl, fun _ _ => rfl, fun _ => rfl, fun _ _ => rfl, fun _ => rfl⟩
  | succ n ih => exact commutes_succ G hom n ih

/-- **Parsing commutes with homomorphisms.** -/
theorem parse_map {B : Algebra C F} {h : E → F} (hom : Hom A B h) (toks : List T) :
    parse G B toks = (parse G A toks).map h := by
  simp only [parse, (commutes G hom _).or]
  rcases parseOr G A (4 * toks.length + 3) toks with (_ | e) | ⟨e, _ | ⟨t, rest⟩⟩ <;> rfl

/-! ### A grammar that accepts more -/

/-- `G'` reads every operand `G` reads, in the same way, and `G` has no negation. -/
structure Refines {ε' : Type} (G : Grammar T C ε) (G' : Grammar T C ε') (A A' : Algebra C E) :
    Prop where
  isOr : ∀ t, G'.isOr t = G.isOr t
  isAnd : ∀ t, G'.isAnd t = G.isAnd t
  isOpen : ∀ t, G'.isOpen t = G.isOpen t
  isClose : ∀ t, G'.isClose t = G.isClose t
  isNot : ∀ t, G.isNot t = false
  open_isNot : ∀ t, G.isOpen t = true → G'.isNot t = false
  leaf : ∀ t rest r, G.leaf t rest = .ok r → G'.leaf t rest = .ok r ∧ G'.isNot t = false
  or : ∀ a b, A'.or a b = A.or a b
  and : ∀ a b, A'.and a b = A.and a b
  build : ∀ c, A'.leaf c = A.leaf c

/-- What the first call makes, the second makes too. -/
def Agrees {ε' : Type} (r : Except (Option ε) (E × List T)) (r' : Except (Option ε') (E × List T)) :
    Prop := ∀ x, r = .ok x → r' = .ok x

theorem Agrees.ok {ε' : Type} (x : E × List T) :
    Agrees (.ok x : Except (Option ε) _) (.ok x : Except (Option ε') _) := by
  intro y hy
  exact congrArg Except.ok (Except.ok.inj hy)

section Refinement

variable {ε' : Type} {G : Grammar T C ε} {G' : Grammar T C ε'} {A' : Algebra C E}

/-- One fuel level of the refinement. -/
structure Accepts (G : Grammar T C ε) (G' : Grammar T C ε') (A A' : Algebra C E) (n : ℕ) : Prop where
  or : ∀ toks, Agrees (parseOr G A n toks) (parseOr G' A' n toks)
  orTail : ∀ l toks, Agrees (orTail G A n l toks) (orTail G' A' n l toks)
  and : ∀ toks, Agrees (parseAnd G A n toks) (parseAnd G' A' n toks)
  andTail : ∀ l toks, Agrees (andTail G A n l toks) (andTail G' A' n l toks)
  term : ∀ toks, Agrees (parseTerm G A n toks) (parseTerm G' A' n toks)

variable (h : Refines G G' A A')

include h

theorem accepts_succ (n : ℕ) (ih : Accepts G G' A A' n) : Accepts G G' A A' (n + 1) where
  or toks r hr := by
    simp only [parseOr] at hr ⊢
    split at hr
    · cases hr
    · rename_i left rest hand
      rw [ih.and _ _ hand]
      exact ih.orTail _ _ _ hr
  orTail l toks := by
    cases toks with
    | nil => exact Agrees.ok _
    | cons t ts =>
      simp only [orTail, h.isOr, h.or]
      split
      · intro r hr
        split at hr
        · cases hr
        · rename_i right rest hand
          rw [ih.and _ _ hand]
          exact ih.orTail _ _ _ hr
      · exact Agrees.ok _
  and toks r hr := by
    simp only [parseAnd] at hr ⊢
    split at hr
    · cases hr
    · rename_i left rest hterm
      rw [ih.term _ _ hterm]
      exact ih.andTail _ _ _ hr
  andTail l toks := by
    cases toks with
    | nil => exact Agrees.ok _
    | cons t ts =>
      simp only [andTail, h.isAnd, h.and]
      split
      · intro r hr
        split at hr
        · cases hr
        · rename_i right rest hterm
          rw [ih.term _ _ hterm]
          exact ih.andTail _ _ _ hr
      · exact Agrees.ok _
  term toks r hr := by
    cases toks with
    | nil => cases hr
    | cons t ts =>
      simp only [parseTerm, h.isNot, h.isOpen, Bool.false_eq_true, if_false] at hr ⊢
      split at hr
      · rename_i hopen
        rw [if_neg (by simp [h.open_isNot t hopen]), if_pos hopen]
        split at hr
        · cases hr
        · rename_i e c rest hor
          simp only [ih.or _ _ hor, h.isClose]
          split at hr
          · rename_i hclose
            rw [if_pos hclose]
            exact Agrees.ok _ r hr
          · cases hr
        · cases hr
      · rename_i hopen
        split at hr
        · cases hr
        · rename_i c rest hleaf
          obtain ⟨hleaf', hnot⟩ := h.leaf _ _ _ hleaf
          rw [if_neg (by simp [hnot]), if_neg hopen, hleaf']
          simp only [h.build]
          exact Agrees.ok _ r hr

theorem accepts (n : ℕ) : Accepts G G' A A' n := by
  induction n with
  | zero =>
    refine ⟨?_, ?_, ?_, ?_, ?_⟩
    all_goals intros; simp_all [Agrees, parseOr, orTail, parseAnd, andTail, parseTerm]
  | succ n ih => exact accepts_succ h n ih

/-- **Refinement.**  A stream the smaller grammar parses is parsed alike by the larger one. -/
theorem parse_refines {toks : List T} {e : E} (he : parse G A toks = .ok e) :
    parse G' A' toks = .ok e := by
  unfold parse at he
  split at he
  · rename_i e' hor
    rw [parse, (accepts h _).or _ _ hor]
    exact congrArg Except.ok (Except.ok.inj he)
  all_goals cases he

end Refinement

end Statute.Base
