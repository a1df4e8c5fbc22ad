import Statute.Base.Machine
import Statute.Cache.Store

/-!
# Requests through the cache handler

The life of a request in `cacheHandler` (`cache.go`) and of its `cacheWriter` (`cache_writer.go`), as
a machine over one cache and any number of requests.

The mutex of the cache makes its operations exclude each other, but the budget has a mutex of its
own: while an operation is inside its reservation loop, candidate writers of other requests may
reserve and release.  A step is therefore one round of such a loop (`Action.reserve`), or what an
operation does before and after it; `State.lock` is the request that holds the mutex of the cache.
Sweeps and retirements do not read the budget and are part of the step they belong to.

What the model does not decide is a parameter of an action: the clock, the verdicts of the policy
latch and of the response observation, the writes of the producer and the success of a delivery.
-/

namespace Statute.Cache

open Statute.Base

/-- Where a request is. -/
inductive Phase where
  /-- in `begin`, before its reservation -/
  | waiting
  | begun
  /-- leased an entry, about to replay it -/
  | looked
  | missed
  /-- in `candidate`, before its reservation -/
  | admitting
  | admitted
  | producing
  /-- in `prepareBodyWrite`: the new array is reserved, the old one not returned -/
  | growing (n : ℤ) (array : ℕ)
  /-- in `finish`, with the buffer and the names to publish -/
  | delivering (buf : ℕ) (names : List Bytes)
  /-- in `publish`, before its checks -/
  | checking (buf : ℕ) (names : List Bytes)
  /-- in `publish`, before its reservation -/
  | publishing (buf : ℕ) (names : List Bytes) (charge : ℤ)
  /-- unwinding its deferred calls -/
  | closing
  | done
deriving DecidableEq

/-- `cacheWriter`.  Ghost: the header at `captureFreshness`. -/
structure Writer where
  buf : ℕ := 0
  streaming : Bool := false
  noStore : Bool := false
  requested : ℤ := 0
  received : Option ℤ := none
  freshness : Freshness := {}
  committed : Header := ⟨[], List.nodup_nil⟩

/-- A request of the handler: what it is looked up and stored under, and its progress. -/
structure Request where
  key : Key := {}
  header : Header := ⟨[], List.nodup_nil⟩
  policy : Option ProxyPolicy := none
  ops : List HeaderOp := []
  multiplexed : Bool := false
  phase : Phase := .waiting
  lease : Option ℕ := none
  candidate : Option ℕ := none
  writer : Writer := {}

instance : Inhabited Request := ⟨{}⟩

/-- One cache and its requests; `clock` is the last reading of `time.Now`. -/
structure State where
  cache : TtlCache
  requests : Heap Request := Heap.empty
  lock : Option ℕ := none
  clock : ℤ := 0

namespace State

variable (s : State) (i : ℕ) (now : ℤ)

/-- The request with a number. -/
def request : Request := s.requests.cell i

/-- Write fields of a request. -/
def update (f : Request → Request) : State :=
  { s with requests := s.requests.modify i f }

/-- Move a request to another phase. -/
def setPhase (phase : Phase) : State := s.update i (fun r => { r with phase := phase })

/-- Replace the cache. -/
def withCache (c : TtlCache) : State := { s with cache := c }

/-- Hand over the mutex of the cache. -/
def withLock (lock : Option ℕ) : State := { s with lock := lock }

/-! ### Admission and lookup -/

def begin (r : Request) : State :=
  { s with
    cache := s.cache.sweepLocked now
    requests := s.requests.alloc { r with phase := .waiting, lease := none, candidate := none, writer := {} }
    lock := some s.requests.size }

/-- `get`: on a hit the request leases the entry. -/
def lookup (latch : Bool) (latched : ℕ → Bool) : State :=
  let r := s.request i
  let c := s.cache.sweepLocked now
  match c.get r.key r.header r.policy latch latched with
  | none => (s.withCache c).setPhase i .missed
  | some e =>
    (s.withCache (c.updateEntry e (fun x => { x with refs := x.refs + 1 }))).update i
      (fun r => { r with phase := .looked, lease := some e })

/-- The entry of a request into `candidate`, up to its reservation. -/
def enterCandidate : State :=
  let c := s.cache.sweepLocked now
  let c := c.evict c.entries.size
  if c.count ≥ c.limit then (s.withCache c).setPhase i .closing
  else ((s.withCache c).setPhase i .admitting).withLock (some i)

/-- `newCacheWriter`. -/
def attach (s : State) (i e : ℕ) (now : ℤ) : State :=
  let c := s.cache.sweepLocked now
  (s.withCache (c.attach e)).update i
    (fun r => { r with phase := .producing, writer := { buf := c.buffers.size, requested := now } })

/-! ### The writer -/

/-- `cacheWriter.captureFreshness`; `first` is the earliest receipt that the observation has seen. -/
def capture (env : Env) (s : State) (i : ℕ) (now : ℤ) (first : Option ℤ) (usable : Bool) : State :=
  let r := s.request i
  match r.writer.received with
  | some _ => s
  | none =>
    let received := match first with
      | none => now
      | some t => if t < now then t else now
    let header := (s.cache.buffer r.writer.buf).header
    s.update i (fun r =>
      { r with writer :=
          { r.writer with
            received := some received
            committed := header
            freshness := currentFreshness env r.ops s.cache.ttl header r.writer.requested received
              usable } })

/-- `cacheWriter.startStreaming`: what was buffered is delivered, and its array returned. -/
def startStreaming : State :=
  if (s.request i).writer.streaming = true then s
  else
    (s.withCache (s.cache.releaseBuffer (s.request i).writer.buf)).update i
      (fun r => { r with writer := { r.writer with streaming := true } })

/-- The header that the producer has filled in. -/
def writerHeader : Header := (s.cache.buffer (s.request i).writer.buf).header

def writeHeader (env : Env) (s : State) (i code : ℕ) (now : ℤ) (first : Option ℤ) (usable : Bool) :
    State :=
  let r := s.request i
  if code = 101 ∧ r.multiplexed = true then s
  else if r.writer.streaming = true ∨ (code < 200 ∧ code ≠ 101) then s
  else
    let s := s.capture env i now first usable
    let s := s.withCache (s.cache.updateBuffer r.writer.buf (fun b =>
      if b.wroteHeader = true then b else { b with status := code, wroteHeader := true }))
    if (cacheHeaderCost (s.writerHeader i)).isNone = true then s.startStreaming i else s

/-- A write of `n` bytes that the body holds. -/
def appendBody (n : ℤ) : State :=
  s.withCache (s.cache.updateBuffer (s.request i).writer.buf (fun b =>
    { b with length := b.length + n, wroteHeader := true }))

/-- A buffer that refused a write; the writer streams from there on. -/
def refuseBody : State :=
  (s.withCache (s.cache.updateBuffer (s.request i).writer.buf (fun b =>
    { b with overLimit := true }))).startStreaming i

/-- The reservation of `prepareBodyWrite`; the array is counted from here on. -/
def reserveBody (n capacity : ℤ) : State :=
  match s.cache.budget.reserve capacity with
  | none => s.refuseBody i
  | some budget =>
    (s.withCache
      { s.cache with budget := budget, arrays := s.cache.arrays.alloc { capacity := capacity } }).setPhase
      i (.growing n s.cache.arrays.size)

def write (env : Env) (s : State) (i n : ℕ) (now : ℤ) (first : Option ℤ) (usable : Bool) : State :=
  if (s.request i).writer.streaming = true then s
  else
    let s := s.capture env i now first usable
    if (cacheHeaderCost (s.writerHeader i)).isNone = true then s.startStreaming i
    else
      let b := (s.request i).writer.buf
      match prepareBodyWrite (s.cache.buffer b) (s.cache.capacity b) n with
      | .refused => s.refuseBody i
      | .fits => s.appendBody i n
      | .grow capacity => s.reserveBody i n capacity

/-- The end of `prepareBodyWrite`: the new array takes over, the old one is returned. -/
def grown (n : ℤ) (array : ℕ) : State :=
  let b := (s.request i).writer.buf
  let old := (s.cache.buffer b).body
  let c := (s.cache.updateBuffer b (fun x => { x with body := some array })).returnArray old
  ((s.withCache c).setPhase i .producing).appendBody i n

/-! ### Completion -/

def cacheResponseEligible (b : ResponseBuffer) : Bool :=
  200 ≤ b.status && b.status < 300 && b.status != 206 &&
    !(cacheHeaderValues b.header (lit "Content-Range")).2

/-- `cacheStorageVary`: the names to store under, when the response may be stored. -/
def cacheStorageVary (ops : List HeaderOp) (b : ResponseBuffer) (requestAllowsStorage policyUsable : Bool) :
    Option (List Bytes) :=
  if cacheProjectionPreflight ops b.header = false then none
  else
    let projected := responseHeadersForCache ops b.header
    match cacheVary [b.header, projected] with
    | none => none
    | some names =>
      if cacheResponseEligible b && policyUsable && requestAllowsStorage &&
          cacheResponseAllowsStorage b.header && cacheResponseAllowsStorage projected then some names
      else none

/-- What `finish` learns from outside: the verdicts of observation and policy, and whether the
delivery succeeded. -/
structure Outcome where
  first : Option ℤ
  usableAtCapture : Bool
  usable : Bool
  policyUsable : Bool
  delivered : Bool

/-- `cacheWriter.finish` of a response that is still buffered, up to its call of `publish`. -/
def complete (env : Env) (s : State) (i e : ℕ) (now : ℤ) (o : Outcome) : State :=
  let r := s.request i
  let b := s.cache.buffer r.writer.buf
  let received := r.writer.received.getD 0
  let names := cacheStorageVary r.ops b (cacheControlAllowsStorage r.header) o.policyUsable
  let freshness := r.writer.freshness.constrain
    (currentFreshness env r.ops s.cache.ttl b.header r.writer.requested received o.usable)
  let header := if freshness.valid then freshness.apply env b.header now else b.header
  let source : Provenance :=
    { request := r.header, ops := r.ops, requested := r.writer.requested, received := received,
      committed := r.writer.committed, completed := b.header }
  let c := s.cache.updateEntry e (fun x => { x with freshness := freshness, source := some source })
  let c := { c with buffers := c.buffers.alloc { b with header := header, entry := e } }
  match names with
  | none => (s.withCache c).setPhase i .closing
  | some names =>
    if o.delivered && !r.writer.noStore && o.policyUsable && o.usable then
      (s.withCache c).setPhase i (.delivering s.cache.buffers.size names)
    else (s.withCache c).setPhase i .closing

def finish (env : Env) (s : State) (i e : ℕ) (now : ℤ) (o : Outcome) : State :=
  let s := s.capture env i now o.first o.usableAtCapture
  if (s.request i).writer.streaming = true then s.setPhase i .closing
  else if (cacheHeaderCost (s.writerHeader i)).isNone = true then (s.startStreaming i).setPhase i .closing
  else s.complete env i e now o

/-- The entry of a request into `publish`. -/
def enterPublish (e buf : ℕ) (names : List Bytes) (now : ℤ) : State :=
  let c := s.cache.sweepLocked now
  ((s.withCache (c.updateEntry e (fun x => { x with buf := some buf }))).setPhase i
    (.checking buf names)).withLock (some i)

/-- The checks of `publish`. -/
def check (e buf : ℕ) (names : List Bytes) (now : ℤ) (latched : Bool) : State :=
  let r := s.request i
  let x := s.cache.entry e
  let refused := (s.setPhase i .closing).withLock none
  if x.freshness.valid = false ∨ ¬ now < x.freshness.expires then refused
  else
    match cacheMetadataCost r.key r.header names (s.cache.buffer buf).header with
    | none => refused
    | some charge =>
      if allowsVary r.policy latched names = false then refused
      else s.setPhase i (.publishing buf names charge)

/-! ### Reservations -/

/-- What the holder of the mutex does once its amount is reserved. -/
def granted : State :=
  let r := s.request i
  match r.phase, r.candidate with
  | .waiting, _ => (s.setPhase i .begun).withLock none
  | .admitting, _ =>
    ((s.withCache s.cache.newCandidate).update i
      (fun r => { r with phase := .admitted, candidate := some s.cache.entries.size })).withLock none
  | .publishing buf names charge, some e =>
    let c := s.cache.ownCopies e buf r.key r.header names charge
    let c := (c.replaceVariantsLocked e r.key r.header).appendEntry e
    ((s.withCache c).setPhase i .closing).withLock none
  | _, _ => s

/-- What the holder of the mutex does when nothing is left to evict. -/
def refused : State :=
  match (s.request i).phase with
  | .waiting => (s.setPhase i .done).withLock none
  | _ => (s.setPhase i .closing).withLock none

/-- The amount that the holder of the mutex reserves. -/
def amount (r : Request) : Option ℤ :=
  match r.phase with
  | .waiting => some cacheScratchBytes
  | .admitting => some cacheEntryControlBytes
  | .publishing _ _ charge => some charge
  | _ => none

def reserveLocked (n : ℤ) : State :=
  match s.cache.budget.reserve n with
  | some budget => (s.withCache { s.cache with budget := budget }).granted i
  | none =>
    match s.cache.head with
    | none => s.refused i
    | some e => s.withCache (s.cache.retireLocked e)

/-! ### Unwinding -/

/-- The deferred `release` of the candidate. -/
def releaseCandidate (e : ℕ) (now : ℤ) : State :=
  (s.withCache ((s.cache.releaseLocked e).sweepLocked now)).update i
    (fun r => { r with candidate := none })

/-- The deferred `release` of the entry that was looked up. -/
def releaseLease (e : ℕ) (now : ℤ) : State :=
  (s.withCache ((s.cache.releaseLocked e).sweepLocked now)).update i (fun r => { r with lease := none })

/-- The deferred `end`. -/
def finishRequest : State :=
  let c := { s.cache with budget := s.cache.budget.release cacheScratchBytes }
  (s.withCache (c.sweepLocked now)).setPhase i .done

end State

/-- The steps of requests. -/
inductive Action where
  | begin (r : Request)
  | reserve
  | lookup (i : ℕ) (eligible latch : Bool) (latched : ℕ → Bool)
  | replay (i : ℕ) (usable : Bool)
  | candidate (i : ℕ)
  | attach (i : ℕ)
  | edit (i : ℕ) (header : Header)
  | writeHeader (i code : ℕ) (first : Option ℤ) (usable : Bool)
  | write (i n : ℕ) (first : Option ℤ) (usable : Bool)
  | grown (i : ℕ)
  | readFailed (i : ℕ)
  | finish (i : ℕ) (o : State.Outcome)
  | publish (i : ℕ)
  | check (latched : Bool)
  | unwind (i : ℕ)
  | release (i : ℕ)
  | finishRequest (i : ℕ)

/-- The request that a step is about; the holder of the mutex for `reserve` and `check`. -/
def Action.subject : Action → Option ℕ
  | .begin _ | .reserve | .check _ => none
  | .lookup i _ _ _ | .replay i _ | .candidate i | .attach i | .edit i _ | .writeHeader i _ _ _
  | .write i _ _ _ | .grown i | .readFailed i | .finish i _ | .publish i | .unwind i | .release i
  | .finishRequest i => some i

namespace State

/-- A phase in which the handler may return or panic without holding the mutex. -/
def mayUnwind : Phase → Bool
  | .begun | .looked | .missed | .admitted | .producing | .delivering _ _ => true
  | _ => false

/-- One step of a request outside the mutex of the cache. -/
def stepFree (env : Env) (s : State) (now : ℤ) : Action → Option State
  | .edit i header =>
    match (s.request i).phase with
    | .producing =>
      some (s.withCache (s.cache.updateBuffer (s.request i).writer.buf (fun b =>
        { b with header := header })))
    | _ => none
  | .writeHeader i code first usable =>
    match (s.request i).phase with
    | .producing => some (s.writeHeader env i code now first usable)
    | _ => none
  | .write i n first usable =>
    match (s.request i).phase with
    | .producing => some (s.write env i n now first usable)
    | _ => none
  | .grown i =>
    match (s.request i).phase with
    | .growing n array => some (s.grown i n array)
    | _ => none
  | .readFailed i =>
    match (s.request i).phase with
    | .producing => some (s.update i (fun r => { r with writer := { r.writer with noStore := true } }))
    | _ => none
  | .finish i o =>
    match (s.request i).phase, (s.request i).candidate with
    | .producing, some e => some (s.finish env i e now o)
    | _, _ => none
  | .replay i usable =>
    match (s.request i).phase, (s.request i).lease with
    | .looked, some e =>
      some (s.setPhase i (if usable && decide (now < (s.cache.entry e).expires) then .closing else .missed))
    | _, _ => none
  | .unwind i => if mayUnwind (s.request i).phase then some (s.setPhase i .closing) else none
  | _ => none

/-- One step that takes the mutex of the cache. -/
def stepLocking (s : State) (now : ℤ) : Action → Option State
  | .begin r => some (s.begin now r)
  | .lookup i eligible latch latched =>
    match (s.request i).phase with
    | .begun =>
      if eligible then some (s.lookup i now latch latched) else some (s.setPhase i .closing)
    | _ => none
  | .candidate i =>
    match (s.request i).phase with
    | .missed => some (s.enterCandidate i now)
    | _ => none
  | .attach i =>
    match (s.request i).phase, (s.request i).candidate with
    | .admitted, some e => some (s.attach i e now)
    | _, _ => none
  | .publish i =>
    match (s.request i).phase, (s.request i).candidate with
    | .delivering buf names, some e => some (s.enterPublish i e buf names now)
    | _, _ => none
  | .release i =>
    match (s.request i).phase, (s.request i).candidate, (s.request i).lease with
    | .closing, some e, _ => some (s.releaseCandidate i e now)
    | .closing, none, some e => some (s.releaseLease i e now)
    | _, _, _ => none
  | .finishRequest i =>
    match (s.request i).phase, (s.request i).candidate, (s.request i).lease with
    | .closing, none, none => some (s.finishRequest i now)
    | _, _, _ => none
  | _ => none

/-- One step of the request that holds the mutex of the cache. -/
def stepLocked (s : State) (i : ℕ) (now : ℤ) : Action → Option State
  | .reserve =>
    match amount (s.request i) with
    | some n => some (s.reserveLocked i n)
    | none => none
  | .check latched =>
    match (s.request i).phase, (s.request i).candidate with
    | .checking buf names, some e => some (s.check i e buf names now latched)
    | _, _ => none
  | _ => none

/-- A step at a reading of the clock, which does not go back. -/
def step (env : Env) (s : State) (a : ℤ × Action) : Option State :=
  if a.1 < s.clock ∨ ∃ i ∈ a.2.subject, s.requests.size ≤ i then none
  else
    let s := { s with clock := a.1 }
    match s.stepFree env a.1 a.2 with
    | some t => some t
    | none =>
      match s.lock with
      | none => s.stepLocking a.1 a.2
      | some i => s.stepLocked i a.1 a.2

end State

/-- The handler with a cache of the given limits. -/
def cacheHandler (env : Env) (ttl entries body budget : ℤ) : Machine State (ℤ × Action) where
  start s := s.cache = newBoundedTTLCache ttl entries body budget ∧ s.requests = Heap.empty ∧ s.lock = none
  step := State.step env

/-! ### One response through the handler -/

/-- Every date is the epoch. -/
def epochEnv : Env where
  arith := Int64Arith.wrapping
  parseTime _ := some 0
  formatTime _ := []

/-- A response that is fresh for a minute and varies by `Accept`. -/
def minuteHeader : Header :=
  ⟨[(lit "Cache-Control", [lit "max-age=60"]), (lit "Vary", [lit "Accept"])], by decide⟩

/-- An empty cache of two entries. -/
def emptyHandler : State where
  cache := newBoundedTTLCache (3600 * second) 2 1000 2000000

/-- The steps of a request that misses and whose response, of three bytes, is stored. -/
def storeResponse : List (ℤ × Action) :=
  [(0, .begin {}), (0, .reserve), (0, .lookup 0 true false (fun _ => false)), (0, .candidate 0),
    (0, .reserve), (0, .attach 0), (0, .edit 0 minuteHeader), (1, .writeHeader 0 200 none true),
    (1, .write 0 3 none true), (1, .grown 0), (2, .finish 0 ⟨none, true, true, true, true⟩),
    (2, .publish 0), (2, .check false), (2, .reserve), (2, .release 0), (2, .finishRequest 0)]

/-- The machine that runs them. -/
def smallHandler : Machine State (ℤ × Action) := cacheHandler epochEnv (3600 * second) 2 1000 2000000

theorem smallHandler_start : smallHandler.Reachable emptyHandler := .start ⟨rfl, rfl, rfl⟩

end Statute.Cache
