import Statute.Base.Reader
import Statute.Cache.Store

/-!
# Buffering the request body for retries

`retry_request_buffer.go`: the body of a retryable request is read into storage that was reserved
first.  The loop stops short when the body is too large or the shared budget refuses to grow it; the
bytes read so far and the rest of the stream are then still the original body.

The budget is seen from one request: what the request holds itself, and what everybody else holds at
the moment of each of its reservations, which may be anything.

* `ReadLoop.step`: one round of `readFrom`; `step_spec` says what every round keeps;
* `readFrom_returns`: the loop ends, and what it calls complete is the whole body.
-/

namespace Statute.Retry

open Statute.Base Statute.Cache

def initialRetryRequestBufferBytes : ℕ := 512

/-- `maxRetryBufferBytes`: 1 MiB. -/
def maxRetryBufferBytes : ℕ := 1048576

/-! ### The budget -/

/-- The shared budget as one request sees it: what it holds itself, and what the others hold when it
makes its next reservation. -/
structure Share where
  limit : ℤ
  own : ℤ := 0
  others : ℕ → ℤ
  turn : ℕ := 0

/-- The budget the next reservation meets. -/
def Share.budget (b : Share) : Budget := ⟨b.limit, b.own + b.others b.turn⟩

def Share.reserve (b : Share) (n : ℤ) : Share × Bool :=
  match b.budget.reserve n with
  | none => ({ b with turn := b.turn + 1 }, false)
  | some _ => ({ b with own := b.own + n, turn := b.turn + 1 }, true)

def Share.release (b : Share) (n : ℤ) : Share := { b with own := b.own - n }

theorem Share.reserve_own (b : Share) (n : ℤ) :
    (b.reserve n).1.own = if (b.reserve n).2 then b.own + n else b.own := by
  unfold Share.reserve
  cases b.budget.reserve n <;> rfl

/-! ### Reading into reserved storage -/

/-- `readFrom` under way: the bytes read, the capacity of their storage, the budget and the
original body. -/
structure ReadLoop (σ : Type) where
  body : Bytes
  cap : ℕ
  share : Share
  reader : σ

namespace ReadLoop

variable {σ : Type} (read : σ → ℕ → Chunk σ)

/-- `retryRequestBuffer.grow`: the new storage is reserved before the old is released. -/
def grow (l : ReadLoop σ) : ReadLoop σ × Bool :=
  let size := min (l.cap * 2) (maxRetryBufferBytes + 1)
  if size ≤ l.cap then (l, false)
  else
    let r := l.share.reserve size
    if r.2 then ({ l with cap := size, share := r.1.release l.cap }, true)
    else ({ l with share := r.1 }, false)

/-- The storage a round of `readFrom` reads into: what is there, or more when it is full. -/
def makeRoom (l : ReadLoop σ) : ReadLoop σ × Bool :=
  if l.body.length = l.cap then l.grow else (l, true)

/-- How a round of `readFrom` ends. -/
inductive Round (σ : Type) where
  | next (l : ReadLoop σ)
  | stop (complete : Bool) (l : ReadLoop σ)

/-- The state after a round. -/
def Round.loop : Round σ → ReadLoop σ
  | .next l => l
  | .stop _ l => l

/-- One round of `readFrom`. -/
def step (l : ReadLoop σ) : Round σ :=
  let g := l.makeRoom
  if g.2 = false then .stop false g.1
  else
    let c := read g.1.reader (g.1.cap - g.1.body.length)
    let l := { g.1 with body := g.1.body ++ c.data, reader := c.next }
    if maxRetryBufferBytes < l.body.length then .stop false l
    else if c.eof then .stop true l
    else .next l

/-- `readFrom`, for as many rounds as are given. -/
def readFrom : ℕ → ReadLoop σ → Option (Bool × ReadLoop σ)
  | 0, _ => none
  | rounds + 1, l =>
    match l.step read with
    | .stop complete l => some (complete, l)
    | .next l => readFrom rounds l

/-- The states in which `readFrom` begins a round. -/
inductive Visits (start : ReadLoop σ) : ReadLoop σ → Prop
  | start : Visits start start
  | next {l l' : ReadLoop σ} (h : Visits start l) (hstep : l.step read = .next l') : Visits start l'

/-- The bytes lie in storage that is reserved, and never exceed the cap by more than one. -/
structure Held (l : ReadLoop σ) : Prop where
  pos : 0 < l.cap
  fits : l.body.length ≤ l.cap
  bounded : l.cap ≤ maxRetryBufferBytes + 1
  reserved : l.share.own = l.cap

/-- The original text is the bytes read and what the original body still delivers. -/
def Spliced (original : Bytes) (l : ReadLoop σ) : Prop :=
  ∃ rest, original = l.body ++ rest ∧ Yields read l.reader rest

variable {read}

variable {l : ReadLoop σ}

theorem grow_held (h : l.Held) :
    l.grow.1.Held ∧ l.grow.1.body = l.body ∧ l.grow.1.reader = l.reader ∧
      (l.grow.2 = true → l.cap < l.grow.1.cap) := by
  unfold grow
  simp only
  split
  · exact ⟨h, rfl, rfl, fun hno => absurd hno (by simp)⟩
  rename_i hsize
  have hown := Share.reserve_own l.share (min (l.cap * 2) (maxRetryBufferBytes + 1) : ℕ)
  split
  · rename_i hgranted
    rw [hgranted, if_pos rfl] at hown
    refine ⟨⟨?_, ?_, min_le_right _ _, ?_⟩, rfl, rfl, fun _ => not_le.mp hsize⟩
    · exact lt_of_le_of_lt (Nat.zero_le _) (not_le.mp hsize)
    · exact h.fits.trans (not_le.mp hsize).le
    · show (l.share.reserve _).1.own - l.cap = (min (l.cap * 2) (maxRetryBufferBytes + 1) : ℕ)
      rw [hown, h.reserved]
      omega
  · rename_i hrefused
    rw [Bool.not_eq_true] at hrefused
    rw [hrefused, if_neg (by simp)] at hown
    exact ⟨⟨h.pos, h.fits, h.bounded, hown.trans h.reserved⟩, rfl, rfl,
      fun hyes => absurd hyes (by simp)⟩

/-- After making room there is room for at least one byte. -/
theorem makeRoom_held (h : l.Held) :
    l.makeRoom.1.Held ∧ l.makeRoom.1.body = l.body ∧ l.makeRoom.1.reader = l.reader ∧
      (l.makeRoom.2 = true → l.makeRoom.1.body.length < l.makeRoom.1.cap) := by
  unfold makeRoom
  split
  · rename_i hfull
    obtain ⟨hheld, hbody, hreader, hgrew⟩ := grow_held h
    refine ⟨hheld, hbody, hreader, fun hyes => ?_⟩
    rw [hbody, hfull]
    exact hgrew hyes
  · rename_i hroom
    exact ⟨h, rfl, rfl, fun _ => lt_of_le_of_ne h.fits hroom⟩

variable {original : Bytes}

/-- **One round.**  It keeps the storage reserved and the text spliced, and what it calls complete
is the whole text. -/
theorem step_spec (h : l.Held) (hs : Spliced read original l) :
    (∀ l', l.step read = .next l' → l'.Held ∧ Spliced read original l') ∧
      ∀ complete l', l.step read = .stop complete l' →
        l'.Held ∧ Spliced read original l' ∧ (complete = true → l'.body = original) := by
  obtain ⟨hheld, hbody, hreader, hspace⟩ := makeRoom_held h
  obtain ⟨rest, hsplit, hyields⟩ := hs
  rw [← hbody] at hsplit
  rw [← hreader] at hyields
  unfold step
  simp only
  cases hroom : l.makeRoom.2 with
  | false =>
    simp only [if_true]
    refine ⟨fun l' hl' => absurd hl' (by simp), fun complete l' hl' => ?_⟩
    obtain ⟨rfl, rfl⟩ := Round.stop.inj hl'
    exact ⟨hheld, ⟨rest, hsplit, hyields⟩, fun hno => absurd hno (by simp)⟩
  | true =>
    have hpos : 0 < l.makeRoom.1.cap - l.makeRoom.1.body.length := by
      have := hspace hroom
      omega
    simp only [Bool.true_eq_false, if_false]
    generalize l.makeRoom.1 = g at *
    cases hyields with
    | read later fits split ended _ next =>
      have hfits := fits _ hpos
      have hheld' : Held { g with
          body := g.body ++ (read g.reader (g.cap - g.body.length)).data
          reader := (read g.reader (g.cap - g.body.length)).next } := by
        refine ⟨hheld.pos, ?_, hheld.bounded, hheld.reserved⟩
        show (g.body ++ _).length ≤ g.cap
        rw [List.length_append]
        have := hheld.fits
        omega
      have hwhole : original = g.body ++ (read g.reader (g.cap - g.body.length)).data ++
          later (g.cap - g.body.length) := by
        rw [hsplit, List.append_assoc, ← split _ hpos]
      -- At the end of the body the rest is empty, and stays so.
      have hspliced : Spliced read original { g with
          body := g.body ++ (read g.reader (g.cap - g.body.length)).data
          reader := (read g.reader (g.cap - g.body.length)).next } := by
        refine ⟨later (g.cap - g.body.length), hwhole, ?_⟩
        cases heof : (read g.reader (g.cap - g.body.length)).eof with
        | true =>
          obtain ⟨hnil, hended⟩ := ended _ hpos heof
          rw [hnil]
          exact hended.yields
        | false => exact (next _ hpos heof).forget 0
      split
      · refine ⟨fun l' hl' => absurd hl' (by simp), fun complete l' hl' => ?_⟩
        obtain ⟨rfl, rfl⟩ := Round.stop.inj hl'
        exact ⟨hheld', hspliced, fun hno => absurd hno (by simp)⟩
      · split
        · rename_i heof
          refine ⟨fun l' hl' => absurd hl' (by simp), fun complete l' hl' => ?_⟩
          obtain ⟨rfl, rfl⟩ := Round.stop.inj hl'
          refine ⟨hheld', hspliced, fun _ => ?_⟩
          rw [hwhole, (ended _ hpos heof).1, List.append_nil]
        · refine ⟨fun l' hl' => ?_, fun complete l' hl' => absurd hl' (by simp)⟩
          obtain rfl := Round.next.inj hl'
          exact ⟨hheld', hspliced⟩

/-- A round that goes on has read, with room for a byte, and did not meet the end. -/
theorem step_next {l' : ReadLoop σ} (h : l.Held) (hstep : l.step read = .next l') :
    ∃ room, 0 < room ∧ (read l.reader room).eof = false ∧
      l'.body = l.body ++ (read l.reader room).data ∧ l'.reader = (read l.reader room).next := by
  obtain ⟨-, hbody, hreader, hspace⟩ := makeRoom_held h
  unfold step at hstep
  simp only [hbody, hreader] at hstep
  rw [hbody] at hspace
  split at hstep
  · cases hstep
  rename_i hroom
  split at hstep
  · cases hstep
  split at hstep
  · cases hstep
  rename_i heof
  obtain rfl := Round.next.inj hstep
  refine ⟨l.makeRoom.1.cap - l.body.length, ?_, by simpa using heof, rfl, rfl⟩
  have := hspace (by simpa using hroom)
  omega

/-- Every round begins and ends in reserved storage, with the text spliced. -/
theorem Visits.spec {start : ReadLoop σ} (hv : Visits read start l) (h : start.Held)
    (hs : Spliced read original start) : l.Held ∧ Spliced read original l := by
  induction hv with
  | start => exact ⟨h, hs⟩
  | next _ hstep ih => exact (step_spec ih.1 ih.2).1 _ hstep

theorem step_loop_held (h : l.Held) (hs : Spliced read original l) : (l.step read).loop.Held := by
  obtain ⟨hnext, hstop⟩ := step_spec h hs
  cases hround : l.step read with
  | next l' => exact (hnext l' hround).1
  | stop complete l' => exact (hstop complete l' hround).1

/-- **`readFrom` returns.**  Each round that goes on has read from the original body, which cannot
return nothing forever. -/
theorem readFrom_returns (h : l.Held) (hs : Spliced read original l) : ∃ rounds complete l',
      readFrom read rounds l = some (complete, l') ∧ l'.Held ∧ Spliced read original l' ∧
        (complete = true → l'.body = original) := by
  obtain ⟨rest, hsplit, hyields⟩ := hs
  generalize hreader : l.reader = s at hyields
  obtain ⟨empties, hdelivers⟩ : ∃ e, Delivers read (fun _ => True) e s rest := ⟨0, hyields⟩
  clear hyields
  induction hdelivers generalizing l with
  | @read _ s rest later fits split ended patient next ih =>
    have hspliced : Spliced read original l :=
      ⟨rest, hsplit, by rw [hreader]; exact (Delivers.read later fits split ended patient next).forget 0⟩
    obtain ⟨hnext, hstop⟩ := step_spec h hspliced
    cases hround : l.step read with
    | stop complete l' =>
      refine ⟨1, complete, l', ?_, hstop complete l' hround⟩
      simp only [readFrom, hround]
    | next l' =>
      obtain ⟨room, hroom, heof, hbody', hreader'⟩ := step_next h hround
      rw [hreader] at heof hbody' hreader'
      have hsplit' : original = l'.body ++ later room := by
        rw [hbody', hsplit, List.append_assoc, ← split _ hroom]
      obtain ⟨rounds, complete, l'', hrun, hspec⟩ :=
        ih _ hroom heof (hnext l' hround).1 hsplit' hreader'
      refine ⟨rounds + 1, complete, l'', ?_, hspec⟩
      simp only [readFrom, hround, hrun]

end ReadLoop

def newRetryRequestBuffer {σ : Type} (share : Share) (reader : σ) : Share × Option (ReadLoop σ) :=
  let size := (min (initialRetryRequestBufferBytes : ℤ) share.limit).toNat
  let r := share.reserve size
  if r.2 then (r.1, some ⟨[], size, r.1, reader⟩) else (r.1, none)

theorem newRetryRequestBuffer_held {σ : Type} {share : Share} {reader : σ} {l : ReadLoop σ}
    (hlimit : 0 < share.limit) (hown : share.own = 0)
    (h : (newRetryRequestBuffer share reader).2 = some l) :
    l.Held ∧ l.body = [] ∧ l.reader = reader := by
  unfold newRetryRequestBuffer at h
  simp only at h
  have hreserve := Share.reserve_own share (min (initialRetryRequestBufferBytes : ℤ) share.limit).toNat
  split at h
  · rename_i hgranted
    rw [hgranted, if_pos rfl, hown, zero_add] at hreserve
    obtain rfl := Option.some.inj h
    refine ⟨⟨?_, Nat.zero_le _, ?_, hreserve⟩, rfl, rfl⟩
    · show 0 < (min (initialRetryRequestBufferBytes : ℤ) share.limit).toNat
      unfold initialRetryRequestBufferBytes
      omega
    · show (min (initialRetryRequestBufferBytes : ℤ) share.limit).toNat ≤ maxRetryBufferBytes + 1
      unfold initialRetryRequestBufferBytes maxRetryBufferBytes
      omega
  · cases h

theorem newRetryRequestBuffer_refused {σ : Type} {share share' : Share} {reader : σ}
    (h : newRetryRequestBuffer share reader = (share', none)) : share'.own = share.own := by
  unfold newRetryRequestBuffer at h
  simp only at h
  have hreserve := Share.reserve_own share (min (initialRetryRequestBufferBytes : ℤ) share.limit).toNat
  split at h
  · exact absurd (congrArg Prod.snd h) (by simp)
  · rename_i hrefused
    rw [if_neg hrefused, (Prod.mk.inj h).1] at hreserve
    exact hreserve

/-! ### The holders of a published buffer -/

/-- `retryRequestBuffer` once it is read: no field but the count of holders changes until the last
one lets go. -/
structure RequestBuffer where
  body : Option Bytes
  cap : ℕ
  refs : ℤ
  share : Share

namespace RequestBuffer

/-- What a holder does: the handler, a Timeout producer, a transport that reads the body. -/
inductive HolderOp where
  | retain
  | release

def retain (b : RequestBuffer) : RequestBuffer := { b with refs := b.refs + 1 }

def release (b : RequestBuffer) : RequestBuffer :=
  let refs := b.refs - 1
  if refs ≠ 0 then { b with refs := refs }
  else { b with refs := refs, body := none, cap := 0, share := b.share.release b.cap }

/-- What the holders do in turn; without a holder nobody can act. -/
def apply (b : RequestBuffer) : List HolderOp → Option RequestBuffer
  | [] => some b
  | op :: ops =>
    if b.refs ≤ 0 then none
    else
      match op with
      | .retain => b.retain.apply ops
      | .release => b.release.apply ops

/-- The bytes and their charge are there as long as there is a holder, and gone after the last. -/
structure Kept (bytes : Bytes) (b : RequestBuffer) : Prop where
  refs : 0 ≤ b.refs
  reserved : b.share.own = b.cap
  held : 0 < b.refs → b.body = some bytes
  gone : b.refs = 0 → b.body = none ∧ b.cap = 0

theorem retain_kept {bytes : Bytes} {b : RequestBuffer} (h : b.Kept bytes) (hrefs : 0 < b.refs) :
    b.retain.Kept bytes := by
  refine ⟨?_, h.reserved, fun _ => h.held hrefs, fun hzero => ?_⟩
  · show 0 ≤ b.refs + 1
    omega
  · change b.refs + 1 = 0 at hzero
    omega

theorem release_kept {bytes : Bytes} {b : RequestBuffer} (h : b.Kept bytes) (hrefs : 0 < b.refs) :
    b.release.Kept bytes := by
  unfold release
  simp only
  split
  · rename_i hmore
    refine ⟨?_, h.reserved, fun _ => h.held hrefs, fun hzero => absurd hzero hmore⟩
    show 0 ≤ b.refs - 1
    omega
  · rename_i hlast
    have hzero : b.refs - 1 = 0 := not_not.mp hlast
    refine ⟨hzero.ge, ?_, fun hpos => absurd hzero hpos.ne', fun _ => ⟨rfl, rfl⟩⟩
    show b.share.own - b.cap = 0
    rw [h.reserved, sub_self]

theorem apply_kept {bytes : Bytes} {b b' : RequestBuffer} {ops : List HolderOp} (h : b.Kept bytes)
    (hrun : b.apply ops = some b') : b'.Kept bytes := by
  induction ops generalizing b with
  | nil =>
    obtain rfl := Option.some.inj hrun
    exact h
  | cons op ops ih =>
    simp only [apply] at hrun
    split at hrun
    · cases hrun
    rename_i hrefs
    cases op with
    | retain => exact ih (retain_kept h (not_le.mp hrefs)) hrun
    | release => exact ih (release_kept h (not_le.mp hrefs)) hrun

end RequestBuffer

end Statute.Retry
