import Mathlib.Data.List.Basic
import Statute.Base.Bytes

/-!
# Byte readers

The contract of Go's `io.Reader` over an arbitrary state: a call with room for some bytes returns at
most that many, possibly none, and possibly the end together with the last of them.  `Delivers` says
of a reader that it hands out exactly a given text and then the end, however the calls are cut; it is
an inductive predicate, so a reader that delivers cannot return nothing forever.

* `Delivers.readAll`: a loop that reads to the end gets the text, whatever room it offers;
* `Delivers.acc`: no loop can go on reading forever;
* `yields_bytes`: `bytes.Reader`;
* `Delivers.multi`: `io.MultiReader` of two readers delivers the two texts one after the other.
-/

namespace Statute.Base

/-- What one `Read` returns: the bytes, whether it reports the end, and the reader afterwards. -/
structure Chunk (σ : Type) where
  data : Bytes
  eof : Bool
  next : σ

variable {σ τ : Type}

/-- A reader at its end stays there: whatever it turns into, it reports the end and no bytes. -/
def Ended (read : σ → ℕ → Chunk σ) (s : σ) : Prop :=
  ∃ atEnd : σ → Prop, atEnd s ∧ ∀ t, atEnd t → ∀ room, 0 < room →
    (read t room).data = [] ∧ (read t room).eof = true ∧ atEnd (read t room).next

/-- The reader hands out exactly `bytes` and then the end.  `ok` bounds how many calls in a row may
return nothing; `empties` of them just did. -/
inductive Delivers (read : σ → ℕ → Chunk σ) (ok : ℕ → Prop) : ℕ → σ → Bytes → Prop
  | read {empties : ℕ} {s : σ} {bytes : Bytes} (rest : ℕ → Bytes)
      (fits : ∀ room, 0 < room → (read s room).data.length ≤ room)
      (split : ∀ room, 0 < room → bytes = (read s room).data ++ rest room)
      (ended : ∀ room, 0 < room → (read s room).eof = true →
        rest room = [] ∧ Ended read (read s room).next)
      (patient : ∀ room, 0 < room → (read s room).eof = false → (read s room).data = [] →
        ok (empties + 1))
      (later : ∀ room, 0 < room → (read s room).eof = false →
        Delivers read ok (if (read s room).data = [] then empties + 1 else 0) (read s room).next
          (rest room)) :
      Delivers read ok empties s bytes

/-- The reader hands out exactly `bytes`, with any number of empty calls. -/
abbrev Yields (read : σ → ℕ → Chunk σ) (s : σ) (bytes : Bytes) : Prop :=
  Delivers read (fun _ => True) 0 s bytes

variable {read : σ → ℕ → Chunk σ} {ok : ℕ → Prop} {empties : ℕ} {s : σ} {bytes : Bytes}

/-- The count of empty calls only matters to a bound on them. -/
theorem Delivers.forget (h : Delivers read ok empties s bytes) (e : ℕ) :
    Delivers read (fun _ => True) e s bytes := by
  induction h generalizing e with
  | read rest fits split ended _ _ ih =>
    exact .read rest fits split ended (fun _ _ _ _ => trivial) fun room hroom heof =>
      ih room hroom heof _

/-- To deliver a text is to return a piece of it and deliver the rest, or the whole of it with the
end. -/
theorem Yields.of_read
    (h : ∀ room, 0 < room → (read s room).data.length ≤ room ∧ ∃ rest,
      bytes = (read s room).data ++ rest ∧
        (((read s room).eof = true ∧ rest = [] ∧ Ended read (read s room).next) ∨
          ((read s room).eof = false ∧ Yields read (read s room).next rest))) :
    Yields read s bytes := by
  refine .read (fun room => bytes.drop (read s room).data.length) (fun room hroom => (h room hroom).1)
    (fun room hroom => ?_) (fun room hroom heof => ?_) (fun _ _ _ _ => trivial)
    fun room hroom heof => ?_
  all_goals
    obtain ⟨-, rest, hsplit, hcase⟩ := h room hroom
    have hdrop : bytes.drop (read s room).data.length = rest := by
      rw [hsplit, List.drop_left]
    rw [hdrop]
  · exact hsplit
  · rcases hcase with ⟨_, hrest, hended⟩ | ⟨hno, _⟩
    · exact ⟨hrest, hended⟩
    · rw [heof] at hno
      cases hno
  · rcases hcase with ⟨hyes, _⟩ | ⟨_, hnext⟩
    · rw [heof] at hyes
      cases hyes
    · exact hnext.forget _

/-- A state that every call maps to itself, with the end, is an end. -/
theorem Ended.of_fixed (h : ∀ room, read s room = ⟨[], true, s⟩) : Ended read s := by
  refine ⟨(· = s), rfl, fun t ht room _ => ?_⟩
  rw [ht, h room]
  exact ⟨rfl, rfl, rfl⟩

theorem Ended.yields (h : Ended read s) : Yields read s [] := by
  obtain ⟨atEnd, hs, hstays⟩ := h
  refine .of_read fun room hroom => ?_
  obtain ⟨hdata, heof, hnext⟩ := hstays s hs room hroom
  rw [hdata]
  exact ⟨Nat.zero_le _, [], rfl, Or.inl ⟨heof, rfl, atEnd, hnext, hstays⟩⟩

/-- Read to the end, the `k`th call with room for `rooms k + 1` bytes. -/
def readAll (read : σ → ℕ → Chunk σ) (rooms : ℕ → ℕ) : ℕ → ℕ → σ → Option Bytes
  | 0, _, _ => none
  | calls + 1, k, s =>
    let c := read s (rooms k + 1)
    if c.eof then some c.data else (readAll read rooms calls (k + 1) c.next).map (c.data ++ ·)

/-- **Reading to the end gets the text.** -/
theorem Delivers.readAll (h : Delivers read ok empties s bytes) (rooms : ℕ → ℕ) (k : ℕ) :
    ∃ calls, Base.readAll read rooms calls k s = some bytes := by
  induction h generalizing k with
  | @read empties s bytes rest _ split ended _ _ ih =>
    have hroom : 0 < rooms k + 1 := Nat.succ_pos _
    have hsplit := split _ hroom
    cases heof : (read s (rooms k + 1)).eof with
    | true =>
      refine ⟨1, ?_⟩
      simp only [Base.readAll, heof, if_true]
      rw [hsplit, (ended _ hroom heof).1, List.append_nil]
    | false =>
      obtain ⟨calls, hcalls⟩ := ih _ hroom heof (k + 1)
      refine ⟨calls + 1, ?_⟩
      simp only [Base.readAll, heof, Bool.false_eq_true, if_false, hcalls, Option.map_some]
      rw [← hsplit]

/-- `t` is what the reader turns into by a call that does not report the end. -/
def Continues (read : σ → ℕ → Chunk σ) (t s : σ) : Prop :=
  ∃ room, 0 < room ∧ (read s room).eof = false ∧ t = (read s room).next

/-- A reader that delivers a text cannot be called forever. -/
theorem Delivers.acc (h : Delivers read ok empties s bytes) : Acc (Continues read) s := by
  induction h with
  | read rest _ _ _ _ _ ih =>
    refine ⟨_, fun t ht => ?_⟩
    obtain ⟨room, hroom, heof, rfl⟩ := ht
    exact ih room hroom heof

/-! ### `bytes.Reader` -/

/-- `bytes.Reader.Read`, over the bytes not read yet. -/
def readBytes (s : Bytes) (room : ℕ) : Chunk Bytes :=
  if s = [] then ⟨[], true, []⟩ else ⟨s.take room, false, s.drop room⟩

theorem ended_readBytes : Ended readBytes [] := .of_fixed fun _ => rfl

/-- It never returns nothing before the end, so no bound on empty calls matters. -/
theorem delivers_bytes (ok : ℕ → Prop) (empties : ℕ) (s : Bytes) :
    Delivers readBytes ok empties s s := by
  induction hlen : s.length using Nat.strong_induction_on generalizing s empties with
  | _ n ih =>
    by_cases hs : s = []
    · have hread : ∀ room, readBytes s room = ⟨[], true, []⟩ := fun room => if_pos hs
      refine .read (fun _ => []) (fun room _ => ?_) (fun room _ => ?_) (fun room _ _ => ⟨rfl, ?_⟩)
        (fun room _ heof => ?_) (fun room _ heof => ?_)
      · rw [hread]
        exact Nat.zero_le _
      · rw [hread, hs]
        rfl
      · rw [hread]
        exact ended_readBytes
      · rw [hread] at heof
        cases heof
      · rw [hread] at heof
        cases heof
    · have hread : ∀ room, readBytes s room = ⟨s.take room, false, s.drop room⟩ :=
        fun room => if_neg hs
      have hpos := List.length_pos_of_ne_nil hs
      have htake : ∀ room, 0 < room → s.take room ≠ [] := fun room hroom hnil => by
        rcases List.take_eq_nil_iff.mp hnil with hzero | hnil
        · omega
        · exact hs hnil
      refine .read (fun room => s.drop room) (fun room _ => ?_) (fun room _ => ?_)
        (fun room _ heof => ?_) (fun room hroom _ hnil => ?_) (fun room hroom _ => ?_)
      · rw [hread]
        exact List.length_take_le _ _
      · rw [hread]
        exact (List.take_append_drop room s).symm
      · rw [hread] at heof
        cases heof
      · rw [hread] at hnil
        exact absurd hnil (htake room hroom)
      · rw [hread, if_neg (htake room hroom)]
        refine ih (s.drop room).length ?_ _ _ rfl
        rw [List.length_drop]
        omega

theorem yields_bytes (s : Bytes) : Yields readBytes s s := delivers_bytes _ 0 s

/-! ### `io.MultiReader` -/

section Multi

variable (read₁ : σ → ℕ → Chunk σ) (read₂ : τ → ℕ → Chunk τ)

/-- The second reader of a pair, once the first is gone. -/
def readSecond (b : Option τ) (room : ℕ) : Chunk (Option σ × Option τ) :=
  match b with
  | none => ⟨[], true, (none, none)⟩
  | some b =>
    let c := read₂ b room
    if c.eof then ⟨c.data, true, (none, none)⟩ else ⟨c.data, false, (none, some c.next)⟩

/-- `multiReader.Read` of two readers: a reader at its end is dropped, and its end is reported only
when no reader is left. -/
def readMulti (s : Option σ × Option τ) (room : ℕ) : Chunk (Option σ × Option τ) :=
  match s.1 with
  | none => readSecond read₂ s.2 room
  | some a =>
    let c := read₁ a room
    if c.eof then
      if c.data = [] then readSecond read₂ s.2 room else ⟨c.data, s.2.isNone, (none, s.2)⟩
    else ⟨c.data, false, (some c.next, s.2)⟩

variable {read₁ read₂}

theorem ended_readMulti : Ended (readMulti read₁ read₂) (none, none) := .of_fixed fun _ => rfl

theorem Delivers.second {b : τ} {ys : Bytes} (h : Delivers read₂ ok empties b ys) :
    Yields (readMulti read₁ read₂) (none, some b) ys := by
  induction h with
  | @read _ b ys rest fits split ended _ _ ih =>
    refine .of_read fun room hroom => ?_
    have hread : readMulti read₁ read₂ (none, some b) room =
        if (read₂ b room).eof then ⟨(read₂ b room).data, true, (none, none)⟩
        else ⟨(read₂ b room).data, false, (none, some (read₂ b room).next)⟩ := rfl
    cases hend : (read₂ b room).eof with
    | true =>
      rw [hread, hend, if_pos rfl]
      exact ⟨fits room hroom, rest room, split room hroom,
        Or.inl ⟨rfl, (ended room hroom hend).1, ended_readMulti⟩⟩
    | false =>
      rw [hread, hend, if_neg (by simp)]
      exact ⟨fits room hroom, rest room, split room hroom, Or.inr ⟨rfl, ih room hroom hend⟩⟩

/-- **One reader after the other.** -/
theorem Delivers.multi {a : σ} {b : τ} {xs ys : Bytes} (ha : Delivers read₁ ok empties a xs)
    (hb : Yields read₂ b ys) : Yields (readMulti read₁ read₂) (some a, some b) (xs ++ ys) := by
  have hsecond : Yields (readMulti read₁ read₂) (none, some b) ys := hb.second
  induction ha with
  | @read _ a xs rest fits split ended _ _ ih =>
    refine .of_read fun room hroom => ?_
    have hsplit := split room hroom
    cases hend : (read₁ a room).eof with
    | false =>
      have hread : readMulti read₁ read₂ (some a, some b) room =
          ⟨(read₁ a room).data, false, (some (read₁ a room).next, some b)⟩ := by
        simp [readMulti, hend]
      rw [hread]
      refine ⟨fits room hroom, rest room ++ ys, ?_, Or.inr ⟨rfl, ih room hroom hend⟩⟩
      rw [← List.append_assoc, ← hsplit]
    | true =>
      have hrest := (ended room hroom hend).1
      rw [hrest, List.append_nil] at hsplit
      by_cases hdata : (read₁ a room).data = []
      · -- The first reader is at its end: the call goes on to the second.
        have hread : readMulti read₁ read₂ (some a, some b) room =
            readMulti read₁ read₂ (none, some b) room := by
          simp [readMulti, hend, hdata]
        rw [hread, hsplit, hdata, List.nil_append]
        cases hsecond with
        | read rest₂ fits₂ split₂ ended₂ _ later₂ =>
          refine ⟨fits₂ room hroom, rest₂ room, split₂ room hroom, ?_⟩
          cases hend₂ : (readMulti read₁ read₂ (none, some b) room).eof with
          | true => exact Or.inl ⟨rfl, ended₂ room hroom hend₂⟩
          | false => exact Or.inr ⟨rfl, (later₂ room hroom hend₂).forget 0⟩
      · have hread : readMulti read₁ read₂ (some a, some b) room =
            ⟨(read₁ a room).data, false, (none, some b)⟩ := by
          simp [readMulti, hend, hdata]
        rw [hread]
        exact ⟨fits room hroom, ys, by rw [hsplit], Or.inr ⟨rfl, hsecond⟩⟩

end Multi

end Statute.Base
