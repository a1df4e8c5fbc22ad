import Statute.Base.Chain
import Statute.Base.Heap
import Statute.Cache.Freshness

/-!
# The cache store

The operations of `cache_store.go` and of the response buffers in `responsebuffer_limit.go`, on an
explicit heap: entries, buffers and the arrays behind bodies are cells, pointers are their numbers.
Copying a `responseBuffer` copies its pointer to the array, so that two buffers may share one; which
of them returns it to the budget is what the accounting is about.

Fields marked as ghost are written and never read by the operations: how often an array or the charge
of an entry was returned, and where the data of an entry came from.
-/

namespace Statute.Cache

open Statute.Base

/-! ### The budget -/

/-- `defaultMaxResponseBodyBytes`: 8 MiB. -/
def defaultMaxResponseBodyBytes : ℤ := 8388608

/-- `defaultResponseBufferBudgetBytes`: 64 MiB. -/
def defaultResponseBufferBudgetBytes : ℤ := 67108864

def defaultCacheMaxEntries : ℤ := 1024

/-- `responseBufferBudget`. -/
structure Budget where
  limit : ℤ
  used : ℤ := 0

def newResponseBufferBudget (limit : ℤ) : Budget where
  limit := if limit ≤ 0 then defaultResponseBufferBudgetBytes else limit

def Budget.reserve (b : Budget) (n : ℤ) : Option Budget :=
  if n > b.limit - b.used then none else some { b with used := b.used + n }

def Budget.release (b : Budget) (n : ℤ) : Budget := { b with used := b.used - n }

/-! ### Cells -/

/-- The array behind a body; ghost: how often it was returned to the budget. -/
structure BodyArray where
  capacity : ℤ := 0
  returns : ℕ := 0
deriving Inhabited

/-- `responseBuffer`: `body` points to the array, `none` for the zero `bytes.Buffer`.  Ghost: the
entry it was made for. -/
structure ResponseBuffer where
  header : Header
  status : ℕ := 200
  body : Option ℕ := none
  length : ℤ := 0
  wroteHeader : Bool := false
  maxBodyBytes : ℤ := 0
  overLimit : Bool := false
  entry : ℕ := 0

instance : Inhabited ResponseBuffer := ⟨{ header := ⟨[], List.nodup_nil⟩ }⟩

/-- Where a stored response came from: the request, the header operations hoisted over it, the time
it was sent to the producer, and the response header when it was committed and when it was complete. -/
structure Provenance where
  request : Header
  ops : List HeaderOp
  requested : ℤ
  received : ℤ
  committed : Header
  completed : Header

/-- `cacheEntry`.  Ghost: how often the charge was returned, whether the entry was ever published, and
the provenance. -/
structure CacheEntry where
  buf : Option ℕ := none
  key : Key := {}
  expires : ℤ := 0
  freshness : Freshness := {}
  vary : List VaryField := []
  prev : Option ℕ := none
  next : Option ℕ := none
  refs : ℤ := 0
  retained : Bool := false
  charge : ℤ := 0
  returns : ℕ := 0
  published : Bool := false
  source : Option Provenance := none

instance : Inhabited CacheEntry := ⟨{}⟩

/-- `ttlCache`, with the heap it points into. -/
structure TtlCache where
  ttl : ℤ
  limit : ℤ
  count : ℤ := 0
  maxBody : ℤ
  budget : Budget
  head : Option ℕ := none
  tail : Option ℕ := none
  entries : Heap CacheEntry := Heap.empty
  buffers : Heap ResponseBuffer := Heap.empty
  arrays : Heap BodyArray := Heap.empty

def newBoundedTTLCache (ttl entries body budget : ℤ) : TtlCache where
  ttl := ttl
  limit := if entries ≤ 0 then defaultCacheMaxEntries else entries
  maxBody := if body ≤ 0 then defaultMaxResponseBodyBytes else body
  budget := newResponseBufferBudget budget

namespace TtlCache

variable (c : TtlCache) (e : ℕ)

/-- The entry at an address. -/
def entry : CacheEntry := c.entries.cell e

/-- The buffer at an address. -/
def buffer (b : ℕ) : ResponseBuffer := c.buffers.cell b

/-- Write fields of an entry. -/
def updateEntry (f : CacheEntry → CacheEntry) : TtlCache :=
  { c with entries := c.entries.modify e f }

/-- Write fields of a buffer. -/
def updateBuffer (b : ℕ) (f : ResponseBuffer → ResponseBuffer) : TtlCache :=
  { c with buffers := c.buffers.modify b f }

def bodyOf (x : CacheEntry) : Option ℕ := x.buf.bind (fun b => (c.buffer b).body)

/-- `b.body.Cap()`. -/
def capacity (c : TtlCache) (b : ℕ) : ℤ :=
  match (c.buffer b).body with
  | none => 0
  | some a => (c.arrays.cell a).capacity

/-- An array goes back to the budget; the zero `bytes.Buffer` has none. -/
def returnArray : Option ℕ → TtlCache
  | none => c
  | some a =>
    { c with
      budget := c.budget.release (c.arrays.cell a).capacity
      arrays := c.arrays.modify a (fun x => { x with returns := x.returns + 1 }) }

/-- `responseBuffer.release`. -/
def releaseBuffer (b : ℕ) : TtlCache :=
  (c.updateBuffer b (fun x => { x with body := none, length := 0 })).returnArray (c.buffer b).body

/-! ### References -/

/-- The end of `releaseLocked`, for an entry without references. -/
def closeEntry : TtlCache :=
  let c :=
    match (c.entry e).buf with
    | none => c
    | some b => (c.releaseBuffer b).updateEntry e (fun x => { x with buf := none })
  let c := { c with budget := c.budget.release (c.entry e).charge, count := c.count - 1 }
  c.updateEntry e (fun x => { x with vary := [], key := {}, returns := x.returns + 1 })

def releaseLocked : TtlCache :=
  let c := c.updateEntry e (fun x => { x with refs := x.refs - 1 })
  if (c.entry e).refs ≠ 0 then c else c.closeEntry e

/-- The links of the retained list. -/
def links : Links ℕ where
  prev := fun e => (c.entry e).prev
  next := fun e => (c.entry e).next
  head := c.head
  tail := c.tail

/-- Link forward from a node, or from the head of the list. -/
def linkForward (p target : Option ℕ) : TtlCache :=
  match p with
  | none => { c with head := target }
  | some p => c.updateEntry p (fun x => { x with next := target })

/-- Link back from a node, or from the tail of the list. -/
def linkBack (n target : Option ℕ) : TtlCache :=
  match n with
  | none => { c with tail := target }
  | some n => c.updateEntry n (fun x => { x with prev := target })

/-- The link writes of `retireLocked`. -/
def unlinkEntry : TtlCache :=
  let x := c.entry e
  ((c.linkForward x.prev x.next).linkBack x.next x.prev).updateEntry e
    (fun y => { y with prev := none, next := none, retained := false })

def retireLocked : TtlCache := (c.unlinkEntry e).releaseLocked e

/-- The loop of `sweepLocked` and `replaceVariantsLocked`: from a cursor on, retire the entries that
satisfy a condition; the successor is read before. -/
def retireWhere (p : CacheEntry → Bool) : ℕ → Option ℕ → TtlCache → TtlCache
  | 0, _, c => c
  | _ + 1, none, c => c
  | fuel + 1, some e, c =>
    retireWhere p fuel (c.entry e).next (if p (c.entry e) then c.retireLocked e else c)

/-- `sweepLocked`.  The list is no longer than the heap. -/
def sweepLocked (now : ℤ) : TtlCache :=
  c.retireWhere (fun x => !decide (now < x.expires)) c.entries.size c.head

/-- The eviction loop of `candidate`. -/
def evict : ℕ → TtlCache → TtlCache
  | 0, c => c
  | fuel + 1, c =>
    match c.head with
    | none => c
    | some e => if c.count ≥ c.limit then evict fuel (c.retireLocked e) else c

/-! ### Lookup -/

/-- The loop of `get` from a cursor on.  The latch of the policy is read for every entry. -/
def getFrom (key : Key) (headers : Header) (policy : Option ProxyPolicy) (latched : ℕ → Bool)
    (c : TtlCache) : ℕ → Option ℕ → Option ℕ
  | 0, _ => none
  | _ + 1, none => none
  | fuel + 1, some e =>
    let x := c.entry e
    if x.key = key ∧ allowsVary policy (latched e) (x.vary.map VaryField.name) = true ∧
        varyMatches x.vary headers = true then some e
    else getFrom key headers policy latched c fuel x.next

/-- `get`, on the swept cache; the reference it takes is taken by the caller's step. -/
def get (key : Key) (headers : Header) (policy : Option ProxyPolicy) (latch : Bool)
    (latched : ℕ → Bool) : Option ℕ :=
  if policy.isSome = true ∧ latch = true then none
  else c.getFrom key headers policy latched c.entries.size c.head

/-! ### Candidates and publication -/

/-- The end of `candidate`: a new entry with one reference. -/
def newCandidate : TtlCache :=
  { c with
    count := c.count + 1
    entries := c.entries.alloc { refs := 1, charge := cacheEntryControlBytes } }

/-- `attach`, with the buffer of `newCacheWriter`. -/
def attach : TtlCache :=
  let fresh : ResponseBuffer :=
    { header := ⟨[], List.nodup_nil⟩, maxBodyBytes := c.maxBody, entry := e }
  { c with
    buffers := c.buffers.alloc fresh
    entries := c.entries.modify e (fun x => { x with buf := some c.buffers.size }) }

/-- The owned metadata that `publish` writes once its charge is reserved; the body stays where it
is. -/
def ownCopies (b : ℕ) (key : Key) (headers : Header) (names : List Bytes) (charge : ℤ) : TtlCache :=
  { c with
    buffers := c.buffers.alloc { c.buffer b with entry := e }
    entries := c.entries.modify e (fun x =>
      { x with charge := x.charge + charge, key := key, vary := cacheSnapshotVary headers names,
               buf := some c.buffers.size }) }

def replaceVariantsLocked (key : Key) (headers : Header) : TtlCache :=
  let vary := (c.entry e).vary
  c.retireWhere (fun old => decide (old.key = key) &&
    (!sameVary old.vary vary || varyMatches old.vary headers)) c.entries.size c.head

/-- The end of `publish`: the entry becomes the last one of the list, which takes a reference. -/
def appendEntry : TtlCache :=
  let last := c.tail
  let c := c.updateEntry e (fun x =>
    { x with expires := x.freshness.expires, retained := true, refs := x.refs + 1, prev := last,
             published := true })
  { c.linkForward last (some e) with tail := some e }

end TtlCache

/-! ### Body growth -/

/-- What `prepareBodyWrite` decides before it touches the budget. -/
inductive BodyWrite where
  | refused
  | fits
  | grow (capacity : ℤ)

def prepareBodyWrite (b : ResponseBuffer) (oldCapacity n : ℤ) : BodyWrite :=
  if b.overLimit = true ∨ n > b.maxBodyBytes - b.length then .refused
  else
    let needed := b.length + n
    if needed ≤ oldCapacity then .fits
    else
      let grown := oldCapacity + min oldCapacity (b.maxBodyBytes - oldCapacity)
      .grow (max needed (min b.maxBodyBytes (max 512 grown)))

end Statute.Cache
