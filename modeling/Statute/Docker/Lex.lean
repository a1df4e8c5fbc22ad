import Statute.Base.Bytes
import Statute.Base.Descent

/-!
# Tokens of a router rule

The two lexers of `internal/docker`: `lexRule` of `rule.go`, which refuses `!`, and `lexEnvelope`
of `envelopeparse.go`, which reads it as a token.  They differ in that one place, so both are
`lexText` at one flag.  The loops recurse on fuel; `lexLoop_ne_fuel` shows that the length of the
text is enough.
-/

namespace Statute.Docker

open Statute.Base

/-- A token of a rule.  The strict lexer never produces `not`. -/
inductive Token where
  | ident (val : Bytes)
  | string (val : Bytes)
  | lparen
  | rparen
  | comma
  | and
  | or
  | not
deriving DecidableEq, Repr

/-- The text of a token, as error messages quote it. -/
def Token.val : Token → Bytes
  | .ident v => v
  | .string v => v
  | .lparen => lit "("
  | .rparen => lit ")"
  | .comma => lit ","
  | .and => lit "&&"
  | .or => lit "||"
  | .not => lit "!"

/-- Why a text does not lex: a lone `&` or `|`, a missing closing quote, a `!` in the strict
grammar, or a byte no token starts with, each with what its message names. -/
inductive LexError where
  | single (c : UInt8) (offset : ℕ)
  | unterminated (offset : ℕ)
  | negation
  | unexpected (c : UInt8) (offset : ℕ)
deriving DecidableEq, Repr

def isRuleSpace (c : UInt8) : Bool := c == ch ' ' || c == 9 || c == 10 || c == 13

/-- `isRuleQuote`: a backtick, a double quote or a single quote. -/
def isRuleQuote (c : UInt8) : Bool := c == 96 || c == 34 || c == 39

def isRuleIdentChar (c : UInt8) : Bool :=
  (ch 'a' ≤ c && c ≤ ch 'z') || (ch 'A' ≤ c && c ≤ ch 'Z') || (ch '0' ≤ c && c ≤ ch '9')

/-- `lexRuleIdent` and `lexEnvIdent`, on the text that starts with an identifier byte. -/
def lexIdent (s : Bytes) : Option Token × Bytes :=
  (some (.ident (s.takeWhile isRuleIdentChar)), s.dropWhile isRuleIdentChar)

/-- `lexRuleOperator` and `lexEnvOperator`: the operator byte has to be doubled. -/
def lexOperator (i : ℕ) (c : UInt8) (rest : Bytes) : Except LexError (Option Token × Bytes) :=
  match rest with
  | [] => .error (.single c i)
  | d :: rest' =>
    if d = c then .ok (some (if c = ch '&' then .and else .or), rest') else .error (.single c i)

/-- `lexRuleString` and `lexEnvString`: the closing quote is the opening one. -/
def lexString (i : ℕ) (c : UInt8) (rest : Bytes) : Except LexError (Option Token × Bytes) :=
  match splitAtByte c rest with
  | none => .error (.unterminated i)
  | some (val, rest') => .ok (some (.string val), rest')

/-- `nextRuleToken` (`negation` off) and `nextEnvToken` (`negation` on): the token at offset `i`,
where `c` stands, and the text behind it; no token for skipped white space. -/
def nextToken (negation : Bool) (i : ℕ) (c : UInt8) (rest : Bytes) :
    Except LexError (Option Token × Bytes) :=
  if isRuleSpace c then .ok (none, rest)
  else if c = ch '(' then .ok (some .lparen, rest)
  else if c = ch ')' then .ok (some .rparen, rest)
  else if c = ch ',' then .ok (some .comma, rest)
  else if c = ch '!' then if negation then .ok (some .not, rest) else .error .negation
  else if c = ch '&' ∨ c = ch '|' then lexOperator i c rest
  else if isRuleQuote c then lexString i c rest
  else if isRuleIdentChar c then .ok (lexIdent (c :: rest))
  else .error (.unexpected c i)

/-- The lexer loop; `error none` marks an exhausted fuel. -/
def lexLoop (negation : Bool) : ℕ → ℕ → Bytes → Except (Option LexError) (List Token)
  | _, _, [] => .ok []
  | 0, _, _ :: _ => .error none
  | n + 1, i, c :: rest =>
    match nextToken negation i c rest with
    | .error e => .error (some e)
    | .ok (tok, rest') =>
      match lexLoop negation n (i + (rest.length + 1 - rest'.length)) rest' with
      | .error e => .error e
      | .ok toks => .ok (tok.toList ++ toks)

def lexText (negation : Bool) (s : Bytes) : Except LexError (List Token) :=
  match lexLoop negation s.length 0 s with
  | .ok toks => .ok toks
  | .error (some e) => .error e
  | .error none => .error (.unterminated s.length)

def lexRule (s : Bytes) : Except LexError (List Token) := lexText false s

def lexEnvelope (s : Bytes) : Except LexError (List Token) := lexText true s

/-! ### Progress -/

theorem lexIdent_length (c : UInt8) (rest : Bytes) (hc : isRuleIdentChar c = true) :
    (lexIdent (c :: rest)).2.length ≤ rest.length := by
  simp only [lexIdent, List.dropWhile_cons, hc, if_true]
  exact (List.dropWhile_suffix _).length_le

variable {negation : Bool}

/-- Every token consumes at least the byte it starts with. -/
theorem nextToken_length {i : ℕ} {c : UInt8} {rest rest' : Bytes} {tok : Option Token}
    (h : nextToken negation i c rest = .ok (tok, rest')) : rest'.length ≤ rest.length := by
  unfold nextToken at h
  split at h
  · simp only [Except.ok.injEq, Prod.mk.injEq] at h
    rw [h.2]
  split at h
  · simp only [Except.ok.injEq, Prod.mk.injEq] at h
    rw [h.2]
  split at h
  · simp only [Except.ok.injEq, Prod.mk.injEq] at h
    rw [h.2]
  split at h
  · simp only [Except.ok.injEq, Prod.mk.injEq] at h
    rw [h.2]
  split at h
  · split at h
    · simp only [Except.ok.injEq, Prod.mk.injEq] at h
      rw [h.2]
    · cases h
  split at h
  · unfold lexOperator at h
    split at h
    · cases h
    · split at h
      · simp only [Except.ok.injEq, Prod.mk.injEq] at h
        rw [← h.2, List.length_cons]
        omega
      · cases h
  split at h
  · unfold lexString at h
    split at h
    · cases h
    · rename_i val rest'' hsplit
      simp only [Except.ok.injEq, Prod.mk.injEq] at h
      rw [← h.2]
      exact le_of_lt (splitAtByte_length hsplit)
  split at h
  · rename_i hident
    simp only [Except.ok.injEq] at h
    have := lexIdent_length c rest hident
    rwa [h] at this
  · cases h

/-- **The fuel is enough.**  The length of a text bounds the tokens it can hold. -/
theorem lexLoop_ne_fuel (negation : Bool) (n i : ℕ) (s : Bytes) (h : s.length ≤ n) :
    lexLoop negation n i s ≠ .error none := by
  induction n generalizing i s with
  | zero =>
    cases s with
    | nil => simp [lexLoop]
    | cons c rest => simp at h
  | succ n ih =>
    cases s with
    | nil => simp [lexLoop]
    | cons c rest =>
      simp only [lexLoop]
      split
      · simp
      · rename_i tok rest' hnext
        have hlen := nextToken_length hnext
        have hrest : rest'.length ≤ n := by
          simp only [List.length_cons] at h
          omega
        split
        · rename_i e hloop
          intro heq
          rw [Except.error.injEq] at heq
          exact ih _ rest' hrest (heq ▸ hloop)
        · simp

/-! ### A text with a token is not blank -/

/-- A token starts at a printing byte; white space is skipped one byte at a time. -/
theorem nextToken_graphic {i : ℕ} {c : UInt8} {rest rest' : Bytes} {tok : Option Token}
    (h : nextToken negation i c rest = .ok (tok, rest')) :
    graphic c = true ∨ (tok = none ∧ rest' = rest) := by
  by_cases hs : isRuleSpace c = true
  · rw [nextToken, if_pos hs, Except.ok.injEq, Prod.mk.injEq] at h
    exact Or.inr ⟨h.1.symm, h.2.symm⟩
  · left
    by_contra hg
    have hother : ∀ c : UInt8, ¬ isRuleSpace c = true → ¬ graphic c = true →
        c ≠ ch '(' ∧ c ≠ ch ')' ∧ c ≠ ch ',' ∧ c ≠ ch '!' ∧ ¬ (c = ch '&' ∨ c = ch '|') ∧
          ¬ isRuleQuote c = true ∧ ¬ isRuleIdentChar c = true :=
      forall_byte (by decide +kernel)
    obtain ⟨h1, h2, h3, h4, h5, h6, h7⟩ := hother c hs hg
    rw [nextToken, if_neg hs, if_neg h1, if_neg h2, if_neg h3, if_neg h4, if_neg h5, if_neg h6,
      if_neg h7] at h
    cases h

theorem lexLoop_graphic {n i : ℕ} {s : Bytes} {toks : List Token}
    (h : lexLoop negation n i s = .ok toks) (hne : toks ≠ []) : ∃ c ∈ s, graphic c = true := by
  induction n generalizing i s toks with
  | zero =>
    cases s with
    | nil => exact absurd (Except.ok.inj h).symm hne
    | cons c rest => simp [lexLoop] at h
  | succ n ih =>
    cases s with
    | nil => exact absurd (Except.ok.inj h).symm hne
    | cons c rest =>
      simp only [lexLoop] at h
      split at h
      · cases h
      · rename_i tok rest' hnext
        split at h
        · cases h
        · rename_i toks' hloop
          rcases nextToken_graphic hnext with hg | ⟨rfl, rfl⟩
          · exact ⟨c, List.mem_cons_self, hg⟩
          · obtain ⟨d, hd, hg⟩ := ih hloop (by simpa [← Except.ok.inj h] using hne)
            exact ⟨d, List.mem_cons_of_mem _ hd, hg⟩

theorem lexText_graphic {s : Bytes} {toks : List Token} (h : lexText negation s = .ok toks)
    (hne : toks ≠ []) : ∃ c ∈ s, graphic c = true := by
  unfold lexText at h
  split at h
  · rename_i toks' hloop
    exact lexLoop_graphic hloop ((Except.ok.inj h) ▸ hne)
  · cases h
  · cases h

end Statute.Docker
