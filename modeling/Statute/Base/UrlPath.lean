import Statute.Base.HostPort

/-!
# URL paths

The parts of `path` and `net/url` that build and read the path of a URL: `path.Clean` as a stack of
elements, the directory of a path, percent-encoding, and the test whether a reference without scheme
or host parses.

The lemmas are about the stack, which holds elements of the path (`mem_cleanStack`).
-/

namespace Statute.Base

/-! ### Cleaning -/

/-- The element `..`. -/
def dotDot : Bytes := lit ".."

/-- One element of `path.Clean`, on the stack of the elements kept so far, last one first. -/
def cleanStep (rooted : Bool) (stack : List Bytes) (elem : Bytes) : List Bytes :=
  if elem = [] ∨ elem = lit "." then stack
  else if elem = dotDot then
    match stack with
    | [] => if rooted then [] else [dotDot]
    | top :: rest => if top = dotDot then dotDot :: top :: rest else rest
  else elem :: stack

/-- The elements `path.Clean` keeps, last one first. -/
def cleanStack (rooted : Bool) (s : Bytes) : List Bytes :=
  (split (ch '/') s).foldl (cleanStep rooted) []

/-- Elements joined by slashes. -/
def joinElems (elems : List Bytes) : Bytes := (lit "/").intercalate elems

variable (c : UInt8) (s elem : Bytes)

/-- The path starts with a slash. -/
def isRooted : Bool := hasPrefix s (lit "/")

/-- `path.Clean`. -/
def pathClean : Bytes :=
  let stack := cleanStack (isRooted s) s
  if isRooted s then ch '/' :: joinElems stack.reverse
  else if stack = [] then lit "." else joinElems stack.reverse

/-- The directory of `path.Split`: everything up to the last slash. -/
def pathDir : Bytes :=
  match cutLast s (ch '/') with
  | some (dir, _) => dir ++ lit "/"
  | none => []

/-! ### Escaping -/

/-- A hexadecimal digit character. -/
def hexChar (upper : Bool) (n : ℕ) : UInt8 :=
  if n < 10 then UInt8.ofNat (48 + n) else UInt8.ofNat ((if upper then 55 else 87) + n)

/-- A byte as `%XX`. -/
def percent (upper : Bool) (c : UInt8) : Bytes :=
  [ch '%', hexChar upper (c.toNat / 16), hexChar upper (c.toNat % 16)]

/-- `shouldEscape` in a path. -/
def shouldEscapePath (c : UInt8) : Bool :=
  !((48 ≤ c && c ≤ 57) || (65 ≤ c && c ≤ 90) || (97 ≤ c && c ≤ 122) ||
    (lit "-_.~$&+,/:;=@").contains c)

/-- `escape` in a path. -/
def escapePath : Bytes :=
  s.flatMap (fun c => if shouldEscapePath c then percent true c else [c])

/-- `validEncoded` in a path. -/
def validEncodedPath : Bool :=
  s.all (fun c => (lit "!$&'()*+,;=:@[]%").contains c || !shouldEscapePath c)

/-- `unescape` in a path or fragment: `none` for a bad escape. -/
def unescape : Bytes → Option Bytes
  | [] => some []
  | c :: rest =>
    if c ≠ ch '%' then (unescape rest).map (c :: ·)
    else match rest with
      | a :: b :: rest' =>
        match hexDigit a, hexDigit b with
        | some x, some y => (unescape rest').map (UInt8.ofNat (16 * x + y) :: ·)
        | _, _ => none
      | _ => none

def escapedPath (path rawPath : Bytes) : Bytes :=
  if rawPath ≠ [] ∧ validEncodedPath rawPath = true ∧ unescape rawPath = some path then rawPath
  else if path = lit "*" then lit "*"
  else escapePath path

/-- An ASCII control byte. -/
def isCTL (c : UInt8) : Bool := c < 32 || c == 127

/-- Whether `url.Parse` accepts a reference that has neither scheme nor host. -/
def urlParses : Bool :=
  match cut s (ch '#') with
  | (u, frag, _) =>
    u.all (fun c => !isCTL c) && (unescape (cut u (ch '?')).1).isSome && (unescape frag).isSome

/-- An ASCII letter. -/
def isLetter (c : UInt8) : Bool := (65 ≤ c && c ≤ 90) || (97 ≤ c && c ≤ 122)

def schemeByte (c : UInt8) : Bool :=
  isLetter c || (48 ≤ c && c ≤ 57) || (lit "+.-").contains c

/-- The rest of a scheme and its colon. -/
def schemeTail : Bytes → Option ℕ
  | [] => none
  | c :: rest =>
    if c = ch ':' then some 1 else if schemeByte c then (schemeTail rest).map (· + 1) else none

/-- The length of the scheme a URL starts with, its colon included: a letter, then letters, digits
and `+`, `.`, `-`. -/
def schemeLength : Bytes → Option ℕ
  | [] => none
  | c :: rest => if isLetter c then (schemeTail rest).map (· + 1) else none

/-- The text starts with a scheme. -/
def hasScheme : Bool := (schemeLength s).isSome

theorem hasScheme_cons : hasScheme (c :: s) = (isLetter c && (schemeTail s).isSome) := by
  cases h : isLetter c <;> simp [hasScheme, schemeLength, h]

theorem schemeTail_cons_isSome :
    (schemeTail (c :: s)).isSome = (c == ch ':' || (schemeByte c && (schemeTail s).isSome)) := by
  by_cases hc : c = ch ':'
  · simp [schemeTail, hc]
  · cases h : schemeByte c <;> simp [schemeTail, hc, h]

/-! ### The stack of a path -/

variable (rooted : Bool)

/-- An element that `path.Clean` keeps as it is. -/
def Ordinary (elem : Bytes) : Prop := elem ≠ [] ∧ elem ≠ lit "." ∧ elem ≠ dotDot

theorem elem_cases : (elem = [] ∨ elem = lit ".") ∨ elem = dotDot ∨ Ordinary elem := by
  by_cases h₁ : elem = []
  · exact Or.inl (Or.inl h₁)
  · by_cases h₂ : elem = lit "."
    · exact Or.inl (Or.inr h₂)
    · by_cases h₃ : elem = dotDot
      · exact Or.inr (Or.inl h₃)
      · exact Or.inr (Or.inr ⟨h₁, h₂, h₃⟩)

variable {stack : List Bytes}

theorem cleanStep_skip {rooted : Bool} {elem : Bytes} (h : elem = [] ∨ elem = lit ".") :
    cleanStep rooted stack elem = stack := by
  unfold cleanStep
  exact if_pos h

theorem cleanStep_ordinary {rooted : Bool} {elem : Bytes} (h : Ordinary elem) :
    cleanStep rooted stack elem = elem :: stack := by
  obtain ⟨h₁, h₂, h₃⟩ := h
  unfold cleanStep
  rw [if_neg (by tauto), if_neg h₃]

theorem cleanStep_dotDot_nil : cleanStep rooted [] dotDot = if rooted then [] else [dotDot] := by
  cases rooted <;> decide

theorem cleanStep_dotDot_cons (top : Bytes) (rest : List Bytes) :
    cleanStep rooted (top :: rest) dotDot =
      if top = dotDot then dotDot :: top :: rest else rest := by
  have hskip : ¬ (dotDot = [] ∨ dotDot = lit ".") := by decide
  unfold cleanStep
  rw [if_neg hskip, if_pos rfl]

theorem mem_foldl_cleanStep_or {elems : List Bytes} {f : Bytes}
    (h : f ∈ elems.foldl (cleanStep rooted) stack) : f ∈ stack ∨ f ∈ elems ∧ f ≠ [] := by
  induction elems generalizing stack with
  | nil => exact Or.inl h
  | cons e rest ih =>
    have hstep : ∀ g ∈ cleanStep rooted stack e, g ∈ stack ∨ g = e ∧ e ≠ [] := by
      intro g hg
      unfold cleanStep at hg
      split at hg
      · exact Or.inl hg
      · rename_i hskip
        have hne : e ≠ [] := fun hnil => hskip (Or.inl hnil)
        split at hg
        · rename_i hdot
          split at hg
          · split at hg
            · exact absurd hg List.not_mem_nil
            · exact Or.inr ⟨(List.mem_singleton.1 hg).trans hdot.symm, hne⟩
          · split at hg
            · rcases List.mem_cons.1 hg with hg | hg
              · exact Or.inr ⟨hg.trans hdot.symm, hne⟩
              · exact Or.inl hg
            · exact Or.inl (List.mem_cons_of_mem _ hg)
        · rcases List.mem_cons.1 hg with hg | hg
          · exact Or.inr ⟨hg, hne⟩
          · exact Or.inl hg
    rcases ih h with hf | ⟨hf, hne⟩
    · rcases hstep f hf with hf | ⟨rfl, hne⟩
      · exact Or.inl hf
      · exact Or.inr ⟨List.mem_cons_self, hne⟩
    · exact Or.inr ⟨List.mem_cons_of_mem _ hf, hne⟩

/-- What `path.Clean` keeps are elements of the path that are not empty. -/
theorem mem_cleanStack {s f : Bytes} (h : f ∈ cleanStack rooted s) : f ∈ split (ch '/') s ∧ f ≠ [] :=
  (mem_foldl_cleanStep_or rooted h).resolve_left List.not_mem_nil

end Statute.Base
