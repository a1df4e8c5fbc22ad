import Statute.Base.Header
import Statute.Retry.RequestBody

/-!
# The attempts of a retried request

`retry.go`: which requests are retried, and with which body every attempt reaches the next handler.
A buffered body is replayed for each attempt; a body that could not be buffered to its end is
forwarded once, the buffered bytes in front of the stream they were read from.

The next handler is left open: it answers each attempt with any response, or breaks the response
limit, and reads the body with calls of any size.
-/

namespace Statute.Retry

open Statute.Base Statute.Cache

/-- The fields of a retry middleware. -/
structure Middleware where
  retryMax : ℤ
  retryOnStatuses : List ℤ
  requestBufferBudgetBytes : ℤ

/-- The fields of a request that matter here; the body is `none` for nil and `http.NoBody`. -/
structure Request (σ : Type) where
  method : Bytes
  header : Header
  body : Option σ

def isIdempotent (method : Bytes) : Bool :=
  [lit "GET", lit "HEAD", lit "OPTIONS", lit "PUT", lit "DELETE", lit "TRACE"].contains method

def isRetryable {σ : Type} (r : Request σ) : Bool :=
  isIdempotent r.method &&
    !hasPrefix (r.header.get (lit "Content-Type")) (lit "application/grpc") &&
    !hasPrefix (r.header.get (lit "Content-Type")) (lit "text/event-stream") &&
    !equalFold (r.header.get (lit "Upgrade")) (lit "websocket")

/-- What the next handler made of an attempt: whether the response stayed within its limits, and
its status. -/
structure Response where
  complete : Bool
  status : ℤ

inductive AttemptBody (σ : Type) where
  | original (body : Option σ)
  | replay (body : Bytes)
  | spliced (buffered : Bytes) (rest : σ)

/-- The next handler reads the body of an attempt to its end. -/
def AttemptBody.readAll {σ : Type} (read : σ → ℕ → Chunk σ) (rooms : ℕ → ℕ) (calls : ℕ) :
    AttemptBody σ → Option Bytes
  | .original none => Base.readAll readBytes rooms calls 0 []
  | .original (some s) => Base.readAll read rooms calls 0 s
  | .replay body => Base.readAll readBytes rooms calls 0 body
  | .spliced buffered rest =>
    Base.readAll (readMulti readBytes read) rooms calls 0 (some buffered, some rest)

def statusMatches (status : ℤ) (codes : List ℤ) : Bool := codes.contains status

def serveRetryAttempt (m : Middleware) (r : Response) (last : Bool) : Bool :=
  if !r.complete then false
  else if last || !statusMatches r.status m.retryOnStatuses then false
  else true

def serveRetryAttempts {σ : Type} (m : Middleware) (respond : ℤ → Response)
    (body : AttemptBody σ) : ℕ → ℤ → List (AttemptBody σ)
  | 0, _ => []
  | left + 1, attempt =>
    body :: if serveRetryAttempt m (respond attempt) (attempt == m.retryMax) then
      serveRetryAttempts m respond body left (attempt + 1) else []

/-- What the handler did: the attempts that reached the next handler, the request buffer, if there
was one, before the handler lets go of it, and the budget. -/
structure Outcome (σ : Type) where
  attempts : List (AttemptBody σ)
  buffer : Option RequestBuffer
  share : Share

/-- The request budget of a handler, while the others hold what `others` says. -/
def requestShare (m : Middleware) (others : ℕ → ℤ) : Share where
  limit := (newResponseBufferBudget m.requestBufferBudgetBytes).limit
  others := others

/-- `retryHandler`, for as many rounds of `readFrom` as are given. -/
def retryHandler {σ : Type} (read : σ → ℕ → Chunk σ) (m : Middleware) (respond : ℤ → Response)
    (others : ℕ → ℤ) (rounds : ℕ) (r : Request σ) : Option (Outcome σ) :=
  let share := requestShare m others
  if m.retryMax < 1 then some ⟨[.original r.body], none, share⟩
  else if !isRetryable r then some ⟨[.original r.body], none, share⟩
  else
    match r.body with
    | none => some ⟨serveRetryAttempts m respond (.original none) m.retryMax.toNat 1, none, share⟩
    | some s =>
      match newRetryRequestBuffer share s with
      | (share, none) => some ⟨[.original (some s)], none, share⟩
      | (_, some l) =>
        (l.readFrom read rounds).map fun (complete, l) =>
          { attempts :=
              if complete then serveRetryAttempts m respond (.replay l.body) m.retryMax.toNat 1
              else [.spliced l.body l.reader]
            buffer := some ⟨some l.body, l.cap, 1, l.share⟩
            share := l.share }

/-- The request's body is `text`. -/
def Request.Carries {σ : Type} (read : σ → ℕ → Chunk σ) (r : Request σ) (text : Bytes) : Prop :=
  match r.body with
  | none => text = []
  | some s => Yields read s text

section Attempts

variable {σ : Type} {read : σ → ℕ → Chunk σ} {m : Middleware} {respond : ℤ → Response}

theorem mem_serveRetryAttempts {body a : AttemptBody σ} {left : ℕ} {attempt : ℤ}
    (h : a ∈ serveRetryAttempts m respond body left attempt) : a = body := by
  induction left generalizing attempt with
  | zero => exact absurd h (by simp [serveRetryAttempts])
  | succ left ih =>
    simp only [serveRetryAttempts, List.mem_cons] at h
    rcases h with h | h
    · exact h
    · split at h
      · exact ih h
      · cases h

theorem serveRetryAttempts_ne_nil {body : AttemptBody σ} (h : 1 ≤ m.retryMax) :
    serveRetryAttempts m respond body m.retryMax.toNat 1 ≠ [] := by
  obtain ⟨left, hleft⟩ : ∃ left, m.retryMax.toNat = left + 1 := ⟨m.retryMax.toNat - 1, by omega⟩
  rw [hleft, serveRetryAttempts]
  exact List.cons_ne_nil _ _

theorem requestShare_limit (m : Middleware) (others : ℕ → ℤ) : 0 < (requestShare m others).limit := by
  show 0 < if m.requestBufferBudgetBytes ≤ 0 then defaultResponseBufferBudgetBytes
    else m.requestBufferBudgetBytes
  unfold defaultResponseBufferBudgetBytes
  split <;> omega

theorem requestShare_own (m : Middleware) (others : ℕ → ℤ) : (requestShare m others).own = 0 := rfl

/-! ### What an attempt reads -/

variable {text : Bytes}

theorem Request.Carries.readAll {r : Request σ} (h : r.Carries read text) (rooms : ℕ → ℕ) :
    ∃ calls, (AttemptBody.original r.body).readAll read rooms calls = some text := by
  unfold Request.Carries at h
  cases hbody : r.body with
  | none =>
    rw [hbody] at h
    rw [h]
    exact (yields_bytes []).readAll rooms 0
  | some s =>
    rw [hbody] at h
    exact h.readAll rooms 0

theorem spliced_readAll {l : ReadLoop σ} (h : ReadLoop.Spliced read text l) (rooms : ℕ → ℕ) :
    ∃ calls, (AttemptBody.spliced l.body l.reader).readAll read rooms calls = some text := by
  obtain ⟨rest, hsplit, hyields⟩ := h
  rw [hsplit]
  exact ((yields_bytes l.body).multi hyields).readAll rooms 0

/-- How the attempts of an outcome carry the body: all of them a replay of the whole text, or one
attempt only. -/
def Outcome.Forwards (r : Request σ) (text : Bytes) (o : Outcome σ) : Prop :=
  (∀ a ∈ o.attempts, a = .replay text) ∨
    (∃ buffered rest, o.attempts = [.spliced buffered rest]) ∨
    o.attempts = [.original r.body] ∨
    (r.body = none ∧ ∀ a ∈ o.attempts, a = .original none)

/-- The budget after an outcome: what is charged is the buffer the handler still holds, and it is
given back by the last holder, who alone frees the bytes. -/
def Outcome.Returns (o : Outcome σ) : Prop :=
  match o.buffer with
  | none => o.share.own = 0
  | some b => b.refs = 1 ∧ b.share = o.share ∧ ∃ bytes, ∀ ops b', b.apply ops = some b' →
      b'.share.own = b'.cap ∧ (0 < b'.refs → b'.body = some bytes) ∧
        (b'.refs = 0 → b'.body = none ∧ b'.share.own = 0)

theorem returns_of_held {l : ReadLoop σ} (h : l.Held) (attempts : List (AttemptBody σ)) :
    Outcome.Returns ⟨attempts, some ⟨some l.body, l.cap, 1, l.share⟩, l.share⟩ := by
  refine ⟨rfl, rfl, l.body, fun ops b' hrun => ?_⟩
  have hkept : RequestBuffer.Kept l.body ⟨some l.body, l.cap, 1, l.share⟩ :=
    ⟨zero_le_one, h.reserved, fun _ => rfl, fun hzero => absurd hzero one_ne_zero⟩
  have hkept' := RequestBuffer.apply_kept hkept hrun
  refine ⟨hkept'.reserved, hkept'.held, fun hzero => ?_⟩
  obtain ⟨hbody, hcap⟩ := hkept'.gone hzero
  refine ⟨hbody, ?_⟩
  rw [hkept'.reserved, hcap]
  rfl

/-- Forwarding the request as it came, once. -/
theorem forwarded_once {r : Request σ} {share : Share} (hcarries : r.Carries read text)
    (hown : share.own = 0) : let o : Outcome σ := ⟨[.original r.body], none, share⟩
    o.attempts ≠ [] ∧ o.Forwards r text ∧
      (∀ a ∈ o.attempts, ∀ rooms, ∃ calls, a.readAll read rooms calls = some text) ∧ o.Returns := by
  refine ⟨List.cons_ne_nil _ _, Or.inr (Or.inr (Or.inl rfl)), fun a ha rooms => ?_, hown⟩
  rw [List.mem_singleton.mp ha]
  exact hcarries.readAll rooms

/-- Buffering begins in reserved storage, with nothing read. -/
theorem Request.Carries.start {r : Request σ} {s : σ} {others : ℕ → ℤ} {start : ReadLoop σ}
    (hcarries : r.Carries read text) (hbody : r.body = some s)
    (hnew : (newRetryRequestBuffer (requestShare m others) s).2 = some start) :
    start.Held ∧ ReadLoop.Spliced read text start := by
  unfold Request.Carries at hcarries
  rw [hbody] at hcarries
  obtain ⟨hheld, hempty, hreader⟩ := newRetryRequestBuffer_held (requestShare_limit m others) rfl hnew
  exact ⟨hheld, text, by rw [hempty, List.nil_append], by rwa [hreader]⟩

/-- A body that was buffered to its end is replayed, and one that was not is forwarded once. -/
theorem attempts_of_buffered {l : ReadLoop σ} {complete : Bool} (m : Middleware)
    (respond : ℤ → Response) (r : Request σ) (hmax : 1 ≤ m.retryMax)
    (hs : ReadLoop.Spliced read text l) (hcomplete : complete = true → l.body = text)
    (buffer : Option RequestBuffer) (share : Share) : let o : Outcome σ :=
      ⟨if complete then serveRetryAttempts m respond (.replay l.body) m.retryMax.toNat 1
        else [.spliced l.body l.reader], buffer, share⟩
    o.attempts ≠ [] ∧ o.Forwards r text ∧
      ∀ a ∈ o.attempts, ∀ rooms, ∃ calls, a.readAll read rooms calls = some text := by
  cases complete with
  | false =>
    refine ⟨List.cons_ne_nil _ _, Or.inr (Or.inl ⟨l.body, l.reader, rfl⟩), fun a ha rooms => ?_⟩
    rw [List.mem_singleton.mp ha]
    exact spliced_readAll hs rooms
  | true =>
    rw [hcomplete rfl]
    refine ⟨serveRetryAttempts_ne_nil hmax, Or.inl fun a ha => mem_serveRetryAttempts ha,
      fun a ha rooms => ?_⟩
    rw [mem_serveRetryAttempts ha]
    exact (yields_bytes text).readAll rooms 0

end Attempts

end Statute.Retry
