import Statute.Base.Reader

/-!
# Reading a request body into memory or a spill file

`consume` of `requestbuffer_runtime.go`.  A body is read into a slice that grows up to one byte
beyond the threshold; past the threshold everything read so far goes to a file, and from then on the
same slice is only the window through which later pieces are copied.

The code is cut where other requests can act: at every use of the shared budgets and of the file
system, whose answer is a parameter of the step.  A negative answer stands for an exhausted budget, a
failed file operation, or a context that is done.

* `Consume.step`: one such piece of `consume`;
* `step_sound`: what every step keeps, and that only a negative answer ends in 503;
* `run_settles`: `consume` returns.
-/

namespace Statute.RequestBuffer

open Statute.Base

def initialRequestBufferBytes : ℤ := 512

/-- `requestBufferInitialSize`; the body is `none` for nil and `http.NoBody`. -/
def requestBufferInitialSize {σ : Type} (body : Option σ) (contentLength limit budget : ℤ) : ℤ :=
  match body with
  | none => 0
  | some _ =>
    let size := if contentLength > 0 then contentLength + 1 else initialRequestBufferBytes
    min (min size (limit + 1)) budget

/-- `requestBodyBuffer`, without the manager and the count of holders. -/
structure Buffer where
  memory : ℕ := 0
  disk : ℕ := 0
  data : Bytes := []
  file : Option Bytes := none
  size : ℕ := 0
deriving Inhabited

namespace Buffer

/-- The buffer `acquire` makes. -/
def make (size : ℕ) : Buffer where
  memory := size
  data := List.replicate size 0

/-- The bytes `reader` reads: a section of the file, or the front of the slice. -/
def reader (b : Buffer) : Bytes :=
  match b.file with
  | some f => f.take b.size
  | none => b.data.take b.size

/-- The new size in `grow`. -/
def grownSize (b : Buffer) (limit : ℕ) : ℕ := b.memory + min b.memory (limit - b.memory)

/-- The copy `grow` makes. -/
def enlarge (b : Buffer) (size : ℕ) : Buffer :=
  { b with memory := size, data := b.data ++ List.replicate (size - b.data.length) 0 }

/-- Where `readTarget` begins in the slice. -/
def offset (b : Buffer) : ℕ := if b.file.isNone then b.size else 0

/-- How much `readTarget` offers. -/
def window (b : Buffer) (maximum : ℕ) : ℕ := min (b.data.length - b.offset) (maximum - b.size + 1)

/-- A chunk is read into the slice. -/
def fill (b : Buffer) (chunk : Bytes) : Buffer :=
  { b with data := b.data.take b.offset ++ chunk ++ b.data.drop (b.offset + chunk.length) }

end Buffer

/-- Where `consume` stands.  `next` is the body after the last read, `none` at its end. -/
inductive Phase (σ : Type) where
  | head (s : σ)
  | growing (s : σ)
  | copying (s : σ) (old : ℕ)
  | reading (s : σ)
  | reserving (next : Option σ)
  | creating (next : Option σ)
  | filling (next : Option σ)
  | writing (n : ℕ) (next : Option σ)
  | done (status : ℕ)

/-- `consume` under way. -/
structure Consume (σ : Type) where
  buffer : Buffer
  emptyReads : ℕ := 0
  phase : Phase σ

namespace Consume

/-- Return with a status. -/
def finish {σ : Type} (c : Consume σ) (status : ℕ) : Consume σ := { c with phase := .done status }

/-- After `readChunk`: at the end of the body `consume` returns, otherwise the loop goes on. -/
def stored {σ : Type} : Option σ → Phase σ
  | none => .done 0
  | some s => .head s

/-- `consume` begins, in the buffer that was acquired. -/
def start {σ : Type} (size : ℕ) (body : Option σ) : Consume σ where
  buffer := .make size
  phase := stored body

variable {σ : Type} (read : σ → ℕ → Chunk σ) (maximum threshold : ℕ)

/-- `readChunk` after `readTarget`, up to `storeChunk`. -/
def readChunk (c : Consume σ) (s : σ) : Consume σ :=
  let chunk := read s (c.buffer.window maximum)
  let n := chunk.data.length
  let c := { c with
    buffer := c.buffer.fill chunk.data
    emptyReads := if n = 0 ∧ chunk.eof = false then c.emptyReads + 1 else 0 }
  if 100 ≤ c.emptyReads then c.finish 400
  else
    let c := { c with buffer := { c.buffer with size := c.buffer.size + n } }
    let next := if chunk.eof then none else some chunk.next
    if maximum < c.buffer.size then c.finish 413
    else if c.buffer.file.isSome then { c with phase := .writing n next }
    else if threshold < c.buffer.size then { c with phase := .reserving next }
    else { c with phase := stored next }

/-- **One piece of `consume`.** -/
def step (ok : Bool) (c : Consume σ) : Consume σ :=
  match c.phase with
  | .head s =>
    if !ok then c.finish 503
    else if c.buffer.file.isNone && c.buffer.size == c.buffer.data.length then
      { c with phase := .growing s }
    else { c with phase := .reading s }
  | .growing s =>
    -- `grow`, up to the end of its first critical section; the copy belongs to the request alone.
    if c.buffer.grownSize (threshold + 1) ≤ c.buffer.memory || !ok then c.finish 503
    else
      { c with
        buffer := c.buffer.enlarge (c.buffer.grownSize (threshold + 1))
        phase := .copying s c.buffer.memory }
  | .copying s _ => { c with phase := .reading s }
  | .reading s => c.readChunk read maximum threshold s
  | .reserving next =>
    if !ok then c.finish 503
    else { c with buffer := { c.buffer with disk := maximum }, phase := .creating next }
  | .creating next =>
    if !ok then c.finish 503
    else { c with buffer := { c.buffer with file := some [] }, phase := .filling next }
  | .filling next =>
    if !ok then c.finish 503
    else
      { c with
        buffer := { c.buffer with file := some (c.buffer.data.take c.buffer.size) }
        phase := stored next }
  | .writing n next =>
    if !ok then c.finish 503
    else
      { c with
        buffer := { c.buffer with file := c.buffer.file.map (· ++ c.buffer.data.take n) }
        phase := stored next }
  | .done _ => c

/-- `consume`, for as many pieces as are given, with the answers to them. -/
def run : ℕ → (ℕ → Bool) → Consume σ → Consume σ
  | 0, _, c => c
  | pieces + 1, oks, c =>
    run pieces (fun k => oks (k + 1)) (c.step read maximum threshold (oks 0))

/-! ### What the buffer holds -/

/-- The slice is as long as its charge, and can hold one byte beyond the threshold. -/
structure Fits (b : Buffer) : Prop where
  length : b.data.length = b.memory
  pos : 0 < b.memory
  bounded : b.memory ≤ threshold + 1

/-- What was read is stored, in the slice as long as there is no file. -/
structure Stores (consumed : Bytes) (b : Buffer) : Prop where
  size : b.size = consumed.length
  within : b.size ≤ maximum
  slice : b.file = none → b.size ≤ b.memory ∧ b.data.take b.size = consumed
  file : ∀ f, b.file = some f → f = consumed

/-- What the body still has to give, after `empties` empty reads. -/
def Rest (empties : ℕ) (rest : Bytes) : Option σ → Prop
  | none => rest = []
  | some s => Delivers read (· ≤ 99) empties s rest

/-- **The right answer.**  413 for a body beyond the maximum, and otherwise 0 with the body in the
buffer. -/
def Right (text : Bytes) (c : Consume σ) : Prop :=
  ∃ status, c.phase = .done status ∧
    if maximum < text.length then status = 413 else status = 0 ∧ c.buffer.reader = text

/-- What holds where `consume` stands, when `consumed` was read and `rest` is left. -/
def At (text consumed rest : Bytes) (c : Consume σ) : Prop :=
  match c.phase with
  | .head s =>
    Stores maximum consumed c.buffer ∧ (c.buffer.file = none → c.buffer.size ≤ threshold) ∧
      Rest read c.emptyReads rest (some s)
  | .growing s =>
    Stores maximum consumed c.buffer ∧ c.buffer.file = none ∧ c.buffer.size = c.buffer.memory ∧
      c.buffer.size ≤ threshold ∧ Rest read c.emptyReads rest (some s)
  | .copying s _ | .reading s =>
    Stores maximum consumed c.buffer ∧ (c.buffer.file = none → c.buffer.size < c.buffer.memory) ∧
      Rest read c.emptyReads rest (some s)
  | .reserving next | .creating next =>
    Stores maximum consumed c.buffer ∧ c.buffer.file = none ∧ Rest read c.emptyReads rest next
  | .filling next =>
    Stores maximum consumed { c.buffer with file := none } ∧ Rest read c.emptyReads rest next
  | .writing n next =>
    (∃ f, c.buffer.file = some f ∧ consumed = f ++ c.buffer.data.take n) ∧
      c.buffer.size = consumed.length ∧ c.buffer.size ≤ maximum ∧
      Rest read c.emptyReads rest next
  | .done _ => Right maximum text c

/-- The invariant of `consume` on a body `text`. -/
def Sound (text : Bytes) (c : Consume σ) : Prop :=
  ((∀ status, c.phase ≠ .done status) → Fits threshold c.buffer) ∧
    ∃ consumed rest, text = consumed ++ rest ∧ At read maximum threshold text consumed rest c

variable {read maximum threshold} {text consumed rest : Bytes} {c : Consume σ}

variable {b : Buffer}

/-- Where there is room in the slice, `readTarget` offers some of it. -/
theorem window_pos (maximum : ℕ) (hfits : Fits threshold b)
    (hroom : b.file = none → b.size < b.memory) : 0 < b.window maximum := by
  have hlength := hfits.length
  have hpos := hfits.pos
  have hoffset : b.offset < b.data.length := by
    unfold Buffer.offset
    cases hfile : b.file with
    | none =>
      have := hroom hfile
      simp only [Option.isNone_none, if_true]
      omega
    | some f =>
      simp only [Option.isNone_some, Bool.false_eq_true, if_false]
      omega
  unfold Buffer.window
  omega

/-- One read: what it returns is the next piece of the rest, and a run of empty reads stays below
the limit. -/
theorem rest_read {s : σ} {empties room : ℕ} (h : Rest read empties rest (some s))
    (hroom : 0 < room) :
    ∃ later, rest = (read s room).data ++ later ∧ (read s room).data.length ≤ room ∧
      (if (read s room).data.length = 0 ∧ (read s room).eof = false then empties + 1 else 0) < 100 ∧
      Rest read
        (if (read s room).data.length = 0 ∧ (read s room).eof = false then empties + 1 else 0)
        later (if (read s room).eof then none else some (read s room).next) := by
  have h' : Delivers read (· ≤ 99) empties s rest := h
  cases h' with
  | read later fits split ended patient next =>
    refine ⟨later room, split room hroom, fits room hroom, ?_⟩
    cases heof : (read s room).eof with
    | true =>
      simp only [Bool.true_eq_false, and_false, if_false, if_true]
      exact ⟨by omega, (ended room hroom heof).1⟩
    | false =>
      have hnext := next room hroom heof
      simp only [List.length_eq_zero_iff, and_true, Bool.false_eq_true, if_false]
      by_cases hdata : (read s room).data = []
      · have hpatient := patient room hroom heof hdata
        simp only [hdata, if_true] at hnext ⊢
        exact ⟨by omega, hnext⟩
      · simp only [hdata, if_false] at hnext ⊢
        exact ⟨by omega, hnext⟩

/-- A chunk that fits the window keeps the length of the slice. -/
theorem fill_length {chunk : Bytes} (h : chunk.length ≤ b.window maximum)
    (hoffset : b.offset ≤ b.data.length) : (b.fill chunk).data.length = b.data.length := by
  have hwindow : chunk.length ≤ b.data.length - b.offset := h.trans (min_le_left _ _)
  simp only [Buffer.fill, List.length_append, List.length_take, List.length_drop]
  omega

/-- The front of the slice after a read: what it was up to the window, then the chunk. -/
theorem take_fill (chunk : Bytes) (hoffset : b.offset ≤ b.data.length) :
    (b.fill chunk).data.take (b.offset + chunk.length) = b.data.take b.offset ++ chunk := by
  have hlength : (b.data.take b.offset ++ chunk).length = b.offset + chunk.length := by
    rw [List.length_append, List.length_take, min_eq_left hoffset]
  show (b.data.take b.offset ++ chunk ++ b.data.drop (b.offset + chunk.length)).take _ = _
  rw [← hlength, List.take_left]

/-- After a stored chunk `consume` goes on, or returns the right answer. -/
theorem at_stored {c : Consume σ} {next : Option σ} (htext : text = consumed ++ rest)
    (hstores : Stores maximum consumed c.buffer)
    (hsmall : c.buffer.file = none → c.buffer.size ≤ threshold)
    (hrest : Rest read c.emptyReads rest next) :
    At read maximum threshold text consumed rest { c with phase := stored next } := by
  cases next with
  | some s => exact ⟨hstores, hsmall, hrest⟩
  | none =>
    change rest = [] at hrest
    rw [hrest, List.append_nil] at htext
    have hwithin := hstores.within
    rw [hstores.size, ← htext] at hwithin
    refine ⟨0, rfl, ?_⟩
    rw [if_neg (not_lt.mpr hwithin)]
    refine ⟨rfl, ?_⟩
    show c.buffer.reader = text
    unfold Buffer.reader
    cases hfile : c.buffer.file with
    | none => exact (hstores.slice hfile).2.trans htext.symm
    | some f =>
      show f.take c.buffer.size = text
      rw [hstores.file f hfile, hstores.size, List.take_length, htext]

/-- `readChunk` keeps the invariant. -/
theorem readChunk_sound {s : σ} (hfits : Fits threshold c.buffer) (htext : text = consumed ++ rest)
    (hstores : Stores maximum consumed c.buffer)
    (hroom : c.buffer.file = none → c.buffer.size < c.buffer.memory)
    (hrest : Rest read c.emptyReads rest (some s)) :
    Sound read maximum threshold text (c.readChunk read maximum threshold s) := by
  obtain ⟨later, hsplit, hchunk, hempties, hlater⟩ :=
    rest_read hrest (window_pos maximum hfits hroom)
  have hoffset : c.buffer.offset ≤ c.buffer.data.length := by
    have := hfits.length
    unfold Buffer.offset
    split
    · rename_i hnone
      have := hroom (Option.isNone_iff_eq_none.mp hnone)
      omega
    · omega
  unfold readChunk
  generalize read s (c.buffer.window maximum) = chunk at *
  have hfits' : Fits threshold { c.buffer.fill chunk.data with
      size := (c.buffer.fill chunk.data).size + chunk.data.length } :=
    ⟨(fill_length hchunk hoffset).trans hfits.length, hfits.pos, hfits.bounded⟩
  have htext' : text = (consumed ++ chunk.data) ++ later := by
    rw [htext, hsplit, List.append_assoc]
  have hsize : (c.buffer.fill chunk.data).size + chunk.data.length =
      (consumed ++ chunk.data).length := by
    rw [List.length_append, ← hstores.size]
    rfl
  simp only [not_le.mpr hempties, if_false]
  split
  · rename_i hlarge
    refine ⟨fun hdone => absurd rfl (hdone 413), consumed ++ chunk.data, later, htext', 413, rfl, ?_⟩
    rw [if_pos]
    rw [htext', List.length_append]
    omega
  rename_i hwithin
  rw [not_lt] at hwithin
  split
  · rename_i hsome
    obtain ⟨f, hf⟩ := Option.isSome_iff_exists.mp hsome
    refine ⟨fun _ => hfits', consumed ++ chunk.data, later, htext', ⟨f, hf, ?_⟩, hsize, hwithin, hlater⟩
    have hzero : c.buffer.offset = 0 := by
      unfold Buffer.offset
      rw [if_neg]
      change c.buffer.file = some f at hf
      rw [hf]
      simp
    have htake := take_fill chunk.data hoffset
    rw [hzero, Nat.zero_add, List.take_zero, List.nil_append] at htake
    show consumed ++ chunk.data = f ++ (c.buffer.fill chunk.data).data.take chunk.data.length
    rw [htake, hstores.file f hf]
  · rename_i hnone
    have hfile : c.buffer.file = none := by
      rw [Bool.not_eq_true, Option.isSome_eq_false_iff, Option.isNone_iff_eq_none] at hnone
      exact hnone
    have hat : c.buffer.offset = c.buffer.size := by
      unfold Buffer.offset
      rw [hfile]
      rfl
    have hstores' : Stores maximum (consumed ++ chunk.data)
        { c.buffer.fill chunk.data with size := (c.buffer.fill chunk.data).size + chunk.data.length } := by
      refine ⟨hsize, hwithin, fun _ => ⟨?_, ?_⟩, fun f hf => absurd (hfile.symm.trans hf) (by simp)⟩
      · show c.buffer.size + chunk.data.length ≤ c.buffer.memory
        have hwindow : chunk.data.length ≤ c.buffer.data.length - c.buffer.offset :=
          hchunk.trans (min_le_left _ _)
        rw [hat, hfits.length] at hwindow
        have := hroom hfile
        omega
      · show (c.buffer.fill chunk.data).data.take (c.buffer.size + chunk.data.length) = _
        rw [← hat, take_fill chunk.data hoffset, hat, (hstores.slice hfile).2]
    split
    · exact ⟨fun _ => hfits', consumed ++ chunk.data, later, htext', hstores', hfile, hlater⟩
    · rename_i hsmall
      exact ⟨fun _ => hfits', consumed ++ chunk.data, later, htext',
        at_stored (c := ⟨_, _, c.phase⟩) htext' hstores' (fun _ => not_lt.mp hsmall) hlater⟩

/-- **The growth guard.**  A slice that holds no more than the threshold has room to grow. -/
theorem memory_lt_grownSize (h : Fits threshold b) (hsmall : b.memory ≤ threshold) :
    b.memory < b.grownSize (threshold + 1) := by
  have hpos := h.pos
  unfold Buffer.grownSize
  omega

theorem Fits.enlarge (h : Fits threshold b) (hsmall : b.memory ≤ threshold) :
    Fits threshold (b.enlarge (b.grownSize (threshold + 1))) := by
  have hgrows := memory_lt_grownSize h hsmall
  refine ⟨?_, (Nat.zero_le _).trans_lt hgrows, ?_⟩
  · show (b.data ++ List.replicate _ 0).length = b.grownSize (threshold + 1)
    rw [List.length_append, List.length_replicate, h.length]
    omega
  · show b.grownSize (threshold + 1) ≤ threshold + 1
    unfold Buffer.grownSize
    omega

/-- Growing keeps what is stored. -/
theorem Stores.enlarge (hfits : Fits threshold b) (h : Stores maximum consumed b)
    (hfull : b.size = b.memory) (hsmall : b.memory ≤ threshold) :
    Stores maximum consumed (b.enlarge (b.grownSize (threshold + 1))) := by
  have hgrows := memory_lt_grownSize hfits hsmall
  refine ⟨h.size, h.within, fun hfile => ⟨?_, ?_⟩, h.file⟩
  · exact hfull.le.trans hgrows.le
  · show (b.data ++ List.replicate _ 0).take b.size = consumed
    rw [List.take_append_of_le_length (hfull.trans hfits.length.symm).le, (h.slice hfile).2]

/-- **What every step keeps.**  A step ends in 503 only after a negative answer. -/
theorem step_sound (ok : Bool) (h : Sound read maximum threshold text c) :
    Sound read maximum threshold text (c.step read maximum threshold ok) ∨
      ok = false ∧ (c.step read maximum threshold ok).phase = .done 503 := by
  obtain ⟨hfits, consumed, rest, htext, hat⟩ := h
  unfold At at hat
  unfold step
  cases ok with
  | false =>
    -- A negative answer is a 503, except where none was asked for.
    cases hphase : c.phase with
    | copying s old =>
      simp only [hphase] at hat
      exact Or.inl ⟨fun _ => hfits (by simp [hphase]), consumed, rest, htext, hat⟩
    | reading s =>
      simp only [hphase] at hat
      exact Or.inl (readChunk_sound (hfits (by simp [hphase])) htext hat.1 hat.2.1 hat.2.2)
    | done status => exact Or.inl ⟨hfits, consumed, rest, htext, by rw [At, hphase]; simpa only [hphase] using hat⟩
    | growing s =>
      refine Or.inr ⟨rfl, ?_⟩
      simp only [Bool.not_false, Bool.or_true, if_true]
      rfl
    | _ => exact Or.inr ⟨rfl, rfl⟩
  | true =>
    refine Or.inl ?_
    cases hphase : c.phase with
    | head s =>
      simp only [hphase] at hat
      obtain ⟨hstores, hsmall, hrest⟩ := hat
      have hfits := hfits (by simp [hphase])
      simp only [Bool.not_true, Bool.false_eq_true, if_false]
      split
      · rename_i hfull
        rw [Bool.and_eq_true, Option.isNone_iff_eq_none, beq_iff_eq, hfits.length] at hfull
        exact ⟨fun _ => hfits, consumed, rest, htext, hstores, hfull.1, hfull.2, hsmall hfull.1, hrest⟩
      · rename_i hroom
        refine ⟨fun _ => hfits, consumed, rest, htext, hstores, fun hnone => ?_, hrest⟩
        refine lt_of_le_of_ne (hstores.slice hnone).1 fun hfull => hroom ?_
        rw [Bool.and_eq_true, Option.isNone_iff_eq_none, beq_iff_eq, hfits.length]
        exact ⟨hnone, hfull⟩
    | growing s =>
      simp only [hphase] at hat
      obtain ⟨hstores, hnone, hfull, hsmall, hrest⟩ := hat
      have hfits := hfits (by simp [hphase])
      rw [hfull] at hsmall
      have hgrows := memory_lt_grownSize hfits hsmall
      simp only [Bool.not_true, Bool.or_false, decide_eq_true_eq, not_le.mpr hgrows, if_false]
      refine ⟨fun _ => hfits.enlarge hsmall, consumed, rest, htext,
        hstores.enlarge hfits hfull hsmall, fun _ => ?_, hrest⟩
      exact hfull.trans_lt hgrows
    | copying s old =>
      simp only [hphase] at hat
      exact ⟨fun _ => hfits (by simp [hphase]), consumed, rest, htext, hat⟩
    | reading s =>
      simp only [hphase] at hat
      exact readChunk_sound (hfits (by simp [hphase])) htext hat.1 hat.2.1 hat.2.2
    | reserving next =>
      simp only [hphase] at hat
      have hfits := hfits (by simp [hphase])
      exact ⟨fun _ => ⟨hfits.length, hfits.pos, hfits.bounded⟩, consumed, rest, htext,
        ⟨hat.1.size, hat.1.within, hat.1.slice, hat.1.file⟩, hat.2⟩
    | creating next =>
      simp only [hphase] at hat
      obtain ⟨hstores, hnone, hrest⟩ := hat
      have hfits := hfits (by simp [hphase])
      exact ⟨fun _ => ⟨hfits.length, hfits.pos, hfits.bounded⟩, consumed, rest, htext,
        ⟨hstores.size, hstores.within, fun _ => hstores.slice hnone, fun f hf => absurd hf (by simp)⟩,
        hrest⟩
    | filling next =>
      simp only [hphase] at hat
      obtain ⟨hstores, hrest⟩ := hat
      have hfits := hfits (by simp [hphase])
      refine ⟨fun _ => ⟨hfits.length, hfits.pos, hfits.bounded⟩, consumed, rest, htext,
        at_stored (c := ⟨_, _, c.phase⟩) htext ?_ (fun hnone => absurd hnone (by simp)) hrest⟩
      refine ⟨hstores.size, hstores.within, fun hnone => absurd hnone (by simp), fun f hf => ?_⟩
      rw [← Option.some.inj hf]
      exact (hstores.slice rfl).2
    | writing n next =>
      simp only [hphase] at hat
      obtain ⟨⟨f, hf, hconsumed⟩, hsize, hwithin, hrest⟩ := hat
      have hfits := hfits (by simp [hphase])
      refine ⟨fun _ => ⟨hfits.length, hfits.pos, hfits.bounded⟩, consumed, rest, htext,
        at_stored (c := ⟨_, _, c.phase⟩) htext ?_ ?_ hrest⟩
      · refine ⟨hsize, hwithin, fun hnone => ?_, fun g hg => ?_⟩
        · simp only [hf, Option.map_some] at hnone
          cases hnone
        · simp only [hf, Option.map_some, Option.some.injEq] at hg
          rw [← hg, hconsumed]
      · intro hnone
        simp only [hf, Option.map_some] at hnone
        cases hnone
    | done status => exact ⟨hfits, consumed, rest, htext, by rw [At, hphase]; simpa only [hphase] using hat⟩

/-- Where `consume` has returned, it gave the right answer. -/
theorem Sound.status {status : ℕ} (h : Sound read maximum threshold text c)
    (hphase : c.phase = .done status) :
    if maximum < text.length then status = 413 else status = 0 ∧ c.buffer.reader = text := by
  obtain ⟨-, consumed, rest, -, hat⟩ := h
  rw [At, hphase] at hat
  obtain ⟨status', hstatus, hright⟩ := hat
  rw [hphase, Phase.done.injEq] at hstatus
  rwa [hstatus]

/-- Where `consume` grows, the guard leaves only the budget to refuse. -/
theorem Sound.grows {s : σ} (h : Sound read maximum threshold text c)
    (hphase : c.phase = .growing s) : c.buffer.memory < c.buffer.grownSize (threshold + 1) := by
  obtain ⟨hfits, consumed, rest, -, hat⟩ := h
  simp only [At, hphase] at hat
  obtain ⟨-, -, hfull, hsmall, -⟩ := hat
  refine memory_lt_grownSize (hfits (by simp [hphase])) ?_
  rwa [← hfull]

/-! ### Returning -/

/-- The body as it will be read next. -/
def nextReader : Phase σ → Option σ
  | .head s | .growing s | .copying s _ | .reading s => some s
  | .reserving next | .creating next | .filling next | .writing _ next => next
  | .done _ => none

/-- How far a phase is from the next read. -/
def distance : Phase σ → ℕ
  | .reserving _ => 7
  | .creating _ => 6
  | .filling _ | .writing _ _ => 5
  | .head _ => 4
  | .growing _ => 3
  | .copying _ _ => 2
  | .reading _ => 1
  | .done _ => 0

/-- A body after a read is later than before it, and its end is the latest. -/
def Later (read : σ → ℕ → Chunk σ) : Option σ → Option σ → Prop
  | none, some _ => True
  | some t, some s => Continues read t s
  | _, none => False

theorem acc_later_none : Acc (Later read) none :=
  ⟨_, fun o ho => by cases o <;> exact absurd ho (by simp [Later])⟩

theorem acc_later_some {s : σ} (h : Acc (Continues read) s) : Acc (Later read) (some s) := by
  induction h with
  | intro s _ ih =>
    refine ⟨_, fun o ho => ?_⟩
    cases o with
    | none => exact acc_later_none
    | some t => exact ih t ho

/-- The next body, if any, can only be read so often. -/
theorem Sound.acc (h : Sound read maximum threshold text c) :
    Acc (Later read) (nextReader c.phase) := by
  obtain ⟨-, consumed, rest, -, hat⟩ := h
  have hrest : ∀ {o : Option σ}, Rest read c.emptyReads rest o → Acc (Later read) o := by
    intro o ho
    cases o with
    | none => exact acc_later_none
    | some s =>
      have hdelivers : Delivers read (· ≤ 99) c.emptyReads s rest := ho
      exact acc_later_some hdelivers.acc
  unfold At at hat
  cases hphase : c.phase <;> simp only [hphase] at hat
  case head s => exact hrest hat.2.2
  case growing s => exact hrest hat.2.2.2.2
  case copying s old => exact hrest hat.2.2
  case reading s => exact hrest hat.2.2
  case reserving next => exact hrest hat.2.2
  case creating next => exact hrest hat.2.2
  case filling next => exact hrest hat.2
  case writing n next => exact hrest hat.2.2.2
  case done status => exact acc_later_none

/-- The loop goes on with the body after the read. -/
theorem stored_progress (next : Option σ) :
    (∃ status, stored next = .done status) ∨
      nextReader (stored next) = next ∧ distance (stored next) < 5 := by
  cases next with
  | none => exact Or.inl ⟨0, rfl⟩
  | some s => exact Or.inr ⟨rfl, by simp [stored, distance]⟩

/-- A read moves the body on. -/
theorem readChunk_progress {s : σ} (hwindow : 0 < c.buffer.window maximum) :
    (∃ status, (c.readChunk read maximum threshold s).phase = .done status) ∨
      Later read (nextReader (c.readChunk read maximum threshold s).phase) (some s) := by
  have hlater : Later read (if (read s (c.buffer.window maximum)).eof then none
      else some (read s (c.buffer.window maximum)).next) (some s) := by
    cases heof : (read s (c.buffer.window maximum)).eof with
    | true => trivial
    | false => exact ⟨_, hwindow, heof, rfl⟩
  unfold readChunk
  generalize read s (c.buffer.window maximum) = chunk at *
  simp only
  generalize (if chunk.data.length = 0 ∧ chunk.eof = false then c.emptyReads + 1 else 0) = empties
  generalize (if chunk.eof then none else some chunk.next) = next at *
  split
  · exact Or.inl ⟨400, rfl⟩
  split
  · exact Or.inl ⟨413, rfl⟩
  split
  · exact Or.inr hlater
  split
  · exact Or.inr hlater
  · rcases stored_progress next with hdone | ⟨hreader, -⟩
    · exact Or.inl hdone
    · refine Or.inr ?_
      show Later read (nextReader (stored next)) (some s)
      rw [hreader]
      exact hlater

/-- **Progress.**  A step returns, comes closer to the next read, or reads. -/
theorem step_progress (ok : Bool) (h : Sound read maximum threshold text c)
    (hdone : ∀ status, c.phase ≠ .done status) :
    (∃ status, (c.step read maximum threshold ok).phase = .done status) ∨
      (nextReader (c.step read maximum threshold ok).phase = nextReader c.phase ∧
        distance (c.step read maximum threshold ok).phase < distance c.phase) ∨
      Later read (nextReader (c.step read maximum threshold ok).phase) (nextReader c.phase) := by
  obtain ⟨hfits, consumed, rest, -, hat⟩ := h
  have hfits := hfits hdone
  unfold step
  cases hphase : c.phase with
  | head s =>
    simp only
    split
    · exact Or.inl ⟨503, rfl⟩
    split
    · exact Or.inr (Or.inl ⟨rfl, by simp [distance]⟩)
    · exact Or.inr (Or.inl ⟨rfl, by simp [distance]⟩)
  | growing | reserving | creating =>
    simp only
    split
    · exact Or.inl ⟨503, rfl⟩
    · exact Or.inr (Or.inl ⟨rfl, by simp [distance]⟩)
  | copying s old => exact Or.inr (Or.inl ⟨rfl, by simp [distance]⟩)
  | reading s =>
    simp only [At, hphase] at hat
    rcases readChunk_progress (window_pos maximum hfits hat.2.1) with hstatus | hlater
    · exact Or.inl hstatus
    · exact Or.inr (Or.inr hlater)
  | filling next | writing _ next =>
    simp only
    split
    · exact Or.inl ⟨503, rfl⟩
    · exact (stored_progress next).imp_right Or.inl
  | done status => exact absurd hphase (hdone status)

theorem run_done {status : ℕ} (h : c.phase = .done status) (pieces : ℕ) (oks : ℕ → Bool) :
    run read maximum threshold pieces oks c = c := by
  induction pieces generalizing oks with
  | zero => rfl
  | succ pieces ih =>
    have hstep : c.step read maximum threshold (oks 0) = c := by
      unfold step
      rw [h]
    rw [run, hstep, ih]

/-- **Along a run** the invariant holds, or `consume` returned 503 after a negative answer. -/
theorem run_sound (pieces : ℕ) (oks : ℕ → Bool) (h : Sound read maximum threshold text c) :
    Sound read maximum threshold text (run read maximum threshold pieces oks c) ∨
      (run read maximum threshold pieces oks c).phase = .done 503 ∧ ∃ k < pieces, oks k = false := by
  induction pieces generalizing oks c with
  | zero => exact Or.inl h
  | succ pieces ih =>
    rw [run]
    rcases step_sound (oks 0) h with hsound | ⟨hrefused, hphase⟩
    · rcases ih (fun k => oks (k + 1)) hsound with hsound | ⟨hphase, k, hk, hrefused⟩
      · exact Or.inl hsound
      · exact Or.inr ⟨hphase, k + 1, by omega, hrefused⟩
    · rw [run_done hphase]
      exact Or.inr ⟨hphase, 0, by omega, hrefused⟩

/-- **`consume` returns.** -/
theorem run_settles (oks : ℕ → Bool) (h : Sound read maximum threshold text c) :
    ∃ pieces status, (run read maximum threshold pieces oks c).phase = .done status := by
  have hacc := h.acc
  generalize hreader : nextReader c.phase = o at hacc
  induction hacc generalizing c oks with
  | intro o _ ih =>
    -- Between two reads the distance to the next one falls.
    induction hdistance : distance c.phase using Nat.strong_induction_on generalizing c oks with
    | _ n closer =>
      by_cases hdone : ∀ status, c.phase ≠ .done status
      swap
      · obtain ⟨status, hstatus⟩ := not_forall.mp hdone
        exact ⟨0, status, not_not.mp hstatus⟩
      have hnext : ∃ pieces status, (run read maximum threshold pieces (fun k => oks (k + 1))
          (c.step read maximum threshold (oks 0))).phase = .done status := by
        rcases step_sound (oks 0) h with hsound | ⟨-, hphase⟩
        · rcases step_progress (oks 0) h hdone with ⟨status, hphase⟩ | ⟨hsame, hcloser⟩ | hlater
          · exact ⟨0, status, hphase⟩
          · exact closer _ (hdistance ▸ hcloser) _ hsound (hsame.trans hreader) rfl
          · exact ih _ (hreader ▸ hlater) _ hsound rfl
        · exact ⟨0, 503, hphase⟩
      obtain ⟨pieces, status, hphase⟩ := hnext
      exact ⟨pieces + 1, status, hphase⟩

/-- `consume` begins soundly in what `requestBufferInitialSize` asks for. -/
theorem start_sound {body : Option σ} {budget : ℤ} (maximum threshold : ℕ) (contentLength : ℤ)
    (hbudget : 0 < budget)
    (hrest : Rest read 0 text body) :
    Sound read maximum threshold text
      (start (requestBufferInitialSize body contentLength threshold budget).toNat body) := by
  cases body with
  | none =>
    change text = [] at hrest
    refine ⟨fun hdone => absurd rfl (hdone 0), [], text, rfl, 0, rfl, ?_⟩
    rw [hrest, if_neg (by simp)]
    exact ⟨rfl, rfl⟩
  | some s =>
    have hpos : 0 < (requestBufferInitialSize (some s) contentLength threshold budget).toNat := by
      unfold requestBufferInitialSize initialRequestBufferBytes
      simp only
      split <;> omega
    have hbound : (requestBufferInitialSize (some s) contentLength threshold budget).toNat ≤
        threshold + 1 := by
      unfold requestBufferInitialSize
      simp only
      omega
    refine ⟨fun _ => ⟨List.length_replicate, hpos, hbound⟩, [], text, rfl, ?_, fun _ => Nat.zero_le _,
      hrest⟩
    exact ⟨rfl, Nat.zero_le _, fun _ => ⟨Nat.zero_le _, rfl⟩, fun f hf => absurd hf (by simp [start, Buffer.make])⟩

end Consume

end Statute.RequestBuffer
