import Statute.Base.Bytes
import Statute.Base.Heap
import Statute.Base.IndexedHeap

/-!
# The bucket store of the rate limiter

`ratelimit.go` keeps one bucket per client key: a map from the key's digest to the bucket, and a heap
of the same buckets ordered by the time each is expected to be full again.  A store with no free
slot retires the bucket at the root once its tokens are back, or evicts it when the policy says so.

What the two entry points `allowWithPolicy` and `reserve` do with the store is one definition,
`access`, over the accounting of a bucket: token arithmetic for the one, a limiter for the other.
Nothing about the index depends on the accounting, so `Indexed` is kept for any arithmetic.
-/

namespace Statute.Limit

open Statute.Base

/-- An instant in nanoseconds after the zero `time.Time`. -/
abbrev Time := ℤ

/-- `math.MaxInt64`, the greatest `time.Duration`. -/
def maxDuration : ℤ := 2 ^ 63 - 1

/-! ### Buckets and their accounting -/

/-- The part of the route's policy the store reads. -/
structure Policy where
  idleTTL : ℤ := 0
  evictIdle : Bool := false

/-- `bucket`, with what counts the requests as `account`.  Its `index` is kept by the heap. -/
structure Bucket (κ σ : Type) where
  key : κ
  account : σ
  fullAt : Time := 0
  idleAt : Time := 0
deriving Inhabited

def Bucket.idleExpired {κ σ : Type} (b : Bucket κ σ) (now : Time) : Bool :=
  b.idleAt != 0 && decide (b.idleAt ≤ now)

/-- What a bucket of either kind can do: start, count a request, say when it will be full, be looked
at again by a retirement, and say that anew when the retirement is refused. -/
structure Accounting (σ ν : Type) where
  fresh : Time → σ
  use : σ → Time → σ × ν
  fullAt : σ → Time → Time
  settle : σ → Time → σ × Bool
  rearm : Option (σ → Time)

/-- The arithmetic of token amounts: the capacity, the refill over an elapsed duration, the two
comparisons, and the deadline of a refill. -/
structure Tokens (τ : Type) where
  capacity : τ
  earn : τ → ℤ → τ
  enough : τ → Bool
  take : τ → τ
  full : τ → Bool
  refillDeadline : Time → τ → Time

/-- The tokens of a bucket and the time they were counted at. -/
structure TokenCount (τ : Type) where
  tokens : τ
  last : Time
deriving Inhabited

/-- `bucketStore.refill`: a reading that is not later than the last leaves the count alone. -/
def Tokens.refill {τ : Type} (T : Tokens τ) (b : TokenCount τ) (now : Time) : TokenCount τ :=
  if b.last < now then ⟨T.earn b.tokens (min (now - b.last) maxDuration), now⟩ else b

def Tokens.deadline {τ : Type} (T : Tokens τ) (b : TokenCount τ) : Time :=
  T.refillDeadline b.last b.tokens

/-- `http.StatusTooManyRequests`. -/
def tooManyRequests : ℕ := 429

/-- `http.StatusServiceUnavailable`. -/
def serviceUnavailable : ℕ := 503

/-- The bucket of `allowWithPolicy`: zero is an admitted request. -/
def Tokens.accounting {τ : Type} (T : Tokens τ) : Accounting (TokenCount τ) ℕ where
  fresh now := ⟨T.capacity, now⟩
  use b now :=
    let b := T.refill b now
    if T.enough b.tokens then (⟨T.take b.tokens, b.last⟩, 0) else (b, tooManyRequests)
  fullAt b _ := T.deadline b
  settle b now :=
    let b := T.refill b now
    (b, T.full b.tokens)
  rearm := some T.deadline

/-- `rate.Limiter` of `golang.org/x/time/rate` as far as `reserve` uses it: a reservation with its
delay when it can be granted, its cancellation, whether the tokens are back to the burst, and when
they will be. -/
structure Limiters (σ : Type) where
  newLimiter : σ
  reserveN : σ → Time → σ × Option ℤ
  cancelAt : σ → Time → σ
  full : σ → Time → Bool
  fullAt : σ → Time → Time

/-- The bucket of `reserve`: the delay of the reservation, cancelled beyond the greatest delay. -/
def Limiters.accounting {σ : Type} (L : Limiters σ) (maxDelay : ℤ) : Accounting σ ℤ where
  fresh _ := L.newLimiter
  use l now :=
    match L.reserveN l now with
    | (l', some delay) => (if maxDelay < delay then L.cancelAt l' now else l', delay)
    | (l', none) => (l', maxDuration)
  fullAt := L.fullAt
  settle l now := (l, L.full l now)
  rearm := none

/-! ### The store -/

/-- A Go map from digests to buckets, with its length. -/
structure BucketMap (κ : Type) where
  get : κ → Option ℕ := fun _ => none
  len : ℕ := 0

section

variable {κ : Type} [DecidableEq κ]

def BucketMap.insert (m : BucketMap κ) (d : κ) (p : ℕ) : BucketMap κ where
  get := Function.update m.get d (some p)
  len := if (m.get d).isSome then m.len else m.len + 1

def BucketMap.delete (m : BucketMap κ) (d : κ) : BucketMap κ where
  get := Function.update m.get d none
  len := if (m.get d).isSome then m.len - 1 else m.len

end

/-- `bucketStore`: the map and the heap hold the numbers of cells. -/
structure BucketStore (κ σ : Type) where
  limit : ℕ
  cells : Heap (Bucket κ σ)
  buckets : BucketMap κ := {}
  expiry : Slots := {}

namespace BucketStore

variable {κ σ ν : Type} [DecidableEq κ]

/-- The key of the heap. -/
def fullAt (s : BucketStore κ σ) (p : ℕ) : Time := (s.cells.cell p).fullAt

/-- Write a bucket's count. -/
def setAccount (s : BucketStore κ σ) (p : ℕ) (a : σ) : BucketStore κ σ :=
  { s with cells := s.cells.modify p fun b => { b with account := a } }

/-- Set a bucket's `fullAt` and fix its place in the heap. -/
def reindex (s : BucketStore κ σ) (p : ℕ) (fullAt : Time) : BucketStore κ σ :=
  let s := { s with cells := s.cells.modify p fun b => { b with fullAt := fullAt } }
  { s with expiry := s.expiry.fix s.fullAt (s.expiry.index p) }

/-- The removal of the caller's own bucket when it has been idle too long. -/
def expireIdle (s : BucketStore κ σ) (d : κ) (now : Time) : BucketStore κ σ :=
  match s.buckets.get d with
  | none => s
  | some p =>
    if (s.cells.cell p).idleExpired now then
      { s with
        expiry := s.expiry.remove s.fullAt (s.expiry.index p)
        buckets := s.buckets.delete d }
    else s

/-- `heap.Pop` and the deletion of what it returns. -/
def popOldest (s : BucketStore κ σ) : BucketStore κ σ :=
  let r := s.expiry.pop s.fullAt
  { s with
    expiry := r.2
    buckets := s.buckets.delete (s.cells.cell r.1).key }

section Access

variable (A : Accounting σ ν)

/-- `retire` and `retireReservation`: free the root's slot if its deadline has passed and it is
idle or full. -/
def retire (s : BucketStore κ σ) (now : Time) : BucketStore κ σ × Bool :=
  let p := s.expiry.item 0
  let b := s.cells.cell p
  if now < b.fullAt then (s, false)
  else
    let r := A.settle b.account now
    let s := s.setAccount p r.1
    if b.idleExpired now || r.2 then (s.popOldest, true)
    else
      match A.rearm with
      | none => (s, false)
      | some deadline => (s.reindex p (deadline r.1), false)

/-- The free slot a new bucket needs: there is one, or one is retired, or the oldest is evicted. -/
def makeRoom (s : BucketStore κ σ) (now : Time) (cfg : Policy) : BucketStore κ σ × Bool :=
  if s.limit ≤ s.buckets.len then
    match s.retire A now with
    | (s, true) => (s, true)
    | (s, false) => if cfg.evictIdle then (s.popOldest, true) else (s, false)
  else (s, true)

/-- A new bucket in the map and the heap. -/
def create (s : BucketStore κ σ) (d : κ) (now : Time) : BucketStore κ σ :=
  let p := s.cells.size
  let s := { s with
    cells := s.cells.alloc { key := d, account := A.fresh now }
    buckets := s.buckets.insert d p }
  { s with expiry := s.expiry.push s.fullAt p }

def indexBucket (s : BucketStore κ σ) (p : ℕ) (now : Time) (cfg : Policy) (fullAt : Time) :
    BucketStore κ σ :=
  let idleAt := if 0 < cfg.idleTTL then now + cfg.idleTTL else 0
  let s := { s with cells := s.cells.modify p fun b => { b with idleAt := idleAt } }
  s.reindex p (if cfg.evictIdle || (idleAt != 0 && decide (idleAt < fullAt)) then idleAt else fullAt)

/-- Count the request and index the bucket by its new deadline. -/
def charge (s : BucketStore κ σ) (p : ℕ) (now : Time) (cfg : Policy) : BucketStore κ σ × Option ν :=
  let r := A.use (s.cells.cell p).account now
  ((s.setAccount p r.1).indexBucket p now cfg (A.fullAt r.1 now), some r.2)

/-- The body `allowWithPolicy` and `reserve` share; no value is a store without a free slot. -/
def access (s : BucketStore κ σ) (d : κ) (now : Time) (cfg : Policy) : BucketStore κ σ × Option ν :=
  let s := s.expireIdle d now
  match s.buckets.get d with
  | some p => s.charge A p now cfg
  | none =>
    match s.makeRoom A now cfg with
    | (s, false) => (s, none)
    | (s, true) => (s.create A d now).charge A s.cells.size now cfg

end Access

end BucketStore

def defaultRateLimitMaxBuckets : ℕ := 65536

section Entry

variable {κ σ τ : Type}

/-- `newBucketStore`, whose rate and capacity are those of the accounting. -/
def newBucketStore [Inhabited κ] [Inhabited σ] (limit : ℤ) : BucketStore κ σ where
  limit := if limit ≤ 0 then defaultRateLimitMaxBuckets else limit.toNat
  cells := Heap.empty

variable [DecidableEq κ] (digest : Bytes → κ)

/-- `allowWithPolicy`: zero admits, anything else is the status of the refusal. -/
def allowWithPolicy (T : Tokens τ) (s : BucketStore κ (TokenCount τ)) (key : Bytes) (now : Time)
    (cfg : Policy) : BucketStore κ (TokenCount τ) × ℕ :=
  let r := s.access T.accounting (digest key) now cfg
  (r.1, r.2.getD serviceUnavailable)

/-- `allow`: the policy without an idle time and without eviction. -/
def allow (T : Tokens τ) (s : BucketStore κ (TokenCount τ)) (key : Bytes) (now : Time) :
    BucketStore κ (TokenCount τ) × ℕ :=
  allowWithPolicy digest T s key now {}

def reserve (L : Limiters σ) (maxDelay : ℤ) (s : BucketStore κ σ) (key : Bytes) (now : Time)
    (cfg : Policy) : BucketStore κ σ × ℤ × Bool :=
  let r := s.access (L.accounting maxDelay) (digest key) now cfg
  match r.2 with
  | none => (r.1, 0, false)
  | some delay => (r.1, delay, true)

end Entry

/-- One call on a store: the client's key and the clock reading. -/
structure Call where
  key : Bytes
  now : Time

/-- The store after a sequence of calls, and what they returned. -/
def runCalls {S ν : Type} (op : S → Bytes → Time → S × ν) : List Call → S → S × List ν
  | [], s => (s, [])
  | c :: rest, s =>
    let r := op s c.key c.now
    let later := runCalls op rest r.1
    (later.1, r.2 :: later.2)

/-! ### The index -/

/-- The map and the heap hold the same buckets, at most `limit` of them, every bucket at its own
digest and recorded position, in the order of `fullAt`. -/
structure Indexed {κ σ : Type} (s : BucketStore κ σ) : Prop where
  valid : s.expiry.Valid s.fullAt
  allocated : ∀ p, s.expiry.Mem p → p < s.cells.size
  same : ∀ d p, s.buckets.get d = some p ↔ s.expiry.Mem p ∧ (s.cells.cell p).key = d
  count : s.buckets.len = s.expiry.size
  room : s.expiry.size ≤ s.limit

namespace Indexed

variable {κ σ ν : Type} {s : BucketStore κ σ}

/-- Two buckets of one digest are one bucket. -/
theorem key_injective (h : Indexed s) {p q : ℕ} (hp : s.expiry.Mem p) (hq : s.expiry.Mem q)
    (hkey : (s.cells.cell p).key = (s.cells.cell q).key) : p = q := by
  have hp' := (h.same _ p).2 ⟨hp, hkey⟩
  rw [(h.same _ q).2 ⟨hq, rfl⟩] at hp'
  exact (Option.some.inj hp').symm

/-- Changes of a bucket that keep its digest and deadline do not concern the index. -/
theorem modify (h : Indexed s) (p : ℕ) {f : Bucket κ σ → Bucket κ σ}
    (hkey : ∀ b, (f b).key = b.key) (hfull : ∀ b, (f b).fullAt = b.fullAt) :
    Indexed { s with cells := s.cells.modify p f } := by
  have hcell : ∀ q, ((s.cells.modify p f).cell q).key = (s.cells.cell q).key ∧
      ((s.cells.modify p f).cell q).fullAt = (s.cells.cell q).fullAt := by
    intro q
    rw [Heap.cell_modify]
    split
    · rename_i hq
      rw [hq, hkey, hfull]
      exact ⟨rfl, rfl⟩
    · exact ⟨rfl, rfl⟩
  refine ⟨h.valid.congr fun q _ => (hcell q).2, h.allocated, fun d q => ?_, h.count, h.room⟩
  rw [h.same d q]
  show _ ↔ _ ∧ ((s.cells.modify p f).cell q).key = d
  rw [(hcell q).1]

theorem setAccount (h : Indexed s) (p : ℕ) (a : σ) : Indexed (s.setAccount p a) :=
  h.modify p (fun _ => rfl) fun _ => rfl

theorem reindex (h : Indexed s) {p : ℕ} (hp : s.expiry.Mem p) (fullAt : Time) :
    Indexed (s.reindex p fullAt) ∧ (s.reindex p fullAt).expiry.size = s.expiry.size ∧
      ∀ q, (s.reindex p fullAt).expiry.Mem q ↔ s.expiry.Mem q := by
  have hcell : ∀ q, q ≠ p → ((s.cells.modify p fun b => { b with fullAt := fullAt }).cell q) =
      s.cells.cell q := fun q hq => by rw [Heap.cell_modify, if_neg hq]
  have hkey : ∀ q, ((s.cells.modify p fun b => { b with fullAt := fullAt }).cell q).key =
      (s.cells.cell q).key := by
    intro q
    rw [Heap.cell_modify]
    split
    · rename_i hq
      rw [hq]
    · rfl
  obtain ⟨hvalid, hsize, hmem⟩ := Slots.fix_valid
    (fun q => ((s.cells.modify p fun b => { b with fullAt := fullAt }).cell q).fullAt) h.valid hp
    fun q hq => by rw [hcell q hq]; rfl
  refine ⟨⟨hvalid, fun q hq => h.allocated q ((hmem q).1 hq), fun d q => ?_, ?_, ?_⟩, hsize, hmem⟩
  · refine (h.same d q).trans (and_congr (hmem q).symm ?_)
    rw [← hkey q]
    rfl
  · exact h.count.trans hsize.symm
  · exact hsize.le.trans h.room

theorem charge (A : Accounting σ ν) (h : Indexed s) {p : ℕ} (hp : s.expiry.Mem p) (now : Time)
    (cfg : Policy) : Indexed (s.charge A p now cfg).1 := by
  have hidle := (h.setAccount p (A.use (s.cells.cell p).account now).1).modify p (f := fun b =>
    { b with idleAt := if 0 < cfg.idleTTL then now + cfg.idleTTL else 0 }) (fun _ => rfl)
    fun _ => rfl
  exact (hidle.reindex hp _).1

/-- The root is a bucket of the store. -/
theorem mem_root (h : 0 < s.expiry.size) : s.expiry.Mem (s.expiry.item 0) := ⟨0, h, rfl⟩

section

variable [DecidableEq κ]

/-- What is left of the index when one bucket leaves the heap and the map. -/
theorem delete (h : Indexed s) {p : ℕ} (hp : s.expiry.Mem p) {expiry : Slots}
    (hvalid : expiry.Valid s.fullAt) (hsize : expiry.size = s.expiry.size - 1)
    (hmem : ∀ q, expiry.Mem q ↔ s.expiry.Mem q ∧ q ≠ p) :
    Indexed { s with
      expiry := expiry
      buckets := s.buckets.delete (s.cells.cell p).key } := by
  have hget : s.buckets.get (s.cells.cell p).key = some p := (h.same _ p).2 ⟨hp, rfl⟩
  refine ⟨hvalid, fun q hq => h.allocated q ((hmem q).1 hq).1, fun d q => ?_, ?_, ?_⟩
  · show Function.update s.buckets.get (s.cells.cell p).key none d = some q ↔ _
    by_cases hd : d = (s.cells.cell p).key
    · rw [hd, Function.update_self]
      refine ⟨fun hnone => absurd hnone (by simp), fun hq => ?_⟩
      have hq' := (hmem q).1 hq.1
      exact absurd (h.key_injective hq'.1 hp hq.2) hq'.2
    · rw [Function.update_of_ne hd, h.same d q, hmem q]
      refine ⟨fun hq => ⟨⟨hq.1, fun hqp => hd ?_⟩, hq.2⟩, fun hq => ⟨hq.1.1, hq.2⟩⟩
      rw [← hq.2, hqp]
  · show (if (s.buckets.get (s.cells.cell p).key).isSome then s.buckets.len - 1
      else s.buckets.len) = expiry.size
    rw [hget, Option.isSome_some, if_pos rfl, h.count, hsize]
  · show expiry.size ≤ s.limit
    have := h.room
    omega

theorem expireIdle (h : Indexed s) (d : κ) (now : Time) : Indexed (s.expireIdle d now) := by
  unfold BucketStore.expireIdle
  split
  · exact h
  · rename_i p hget
    split
    · obtain ⟨hp, hkey⟩ := (h.same d p).1 hget
      obtain ⟨hvalid, hsize, hmem⟩ := Slots.remove_valid h.valid hp
      have hdelete := h.delete hp hvalid hsize hmem
      rwa [hkey] at hdelete
    · exact h

theorem popOldest (h : Indexed s) (hpos : 0 < s.expiry.size) :
    Indexed s.popOldest ∧ s.popOldest.expiry.size = s.expiry.size - 1 := by
  obtain ⟨hroot, hvalid, hsize, hmem⟩ := Slots.pop_valid h.valid hpos
  have hdelete := h.delete (mem_root hpos) hvalid hsize hmem
  rw [← hroot] at hdelete
  exact ⟨hdelete, hsize⟩

variable (A : Accounting σ ν)

theorem retire (h : Indexed s) (hpos : 0 < s.expiry.size) (now : Time) :
    Indexed (s.retire A now).1 ∧
      (s.retire A now).1.expiry.size = s.expiry.size - if (s.retire A now).2 then 1 else 0 := by
  unfold BucketStore.retire
  simp only
  split
  · exact ⟨h, rfl⟩
  have hmod := h.setAccount (s.expiry.item 0)
    (A.settle (s.cells.cell (s.expiry.item 0)).account now).1
  split
  · exact hmod.popOldest hpos
  · split
    · exact ⟨hmod, rfl⟩
    · rename_i deadline _
      have hre := hmod.reindex (mem_root hpos) (deadline
        (A.settle (s.cells.cell (s.expiry.item 0)).account now).1)
      exact ⟨hre.1, hre.2.1⟩

theorem retire_limit (s : BucketStore κ σ) (now : Time) : (s.retire A now).1.limit = s.limit := by
  unfold BucketStore.retire
  simp only
  split
  · rfl
  · split
    · rfl
    · split <;> rfl

theorem makeRoom (h : Indexed s) (hlimit : 0 < s.limit) (now : Time) (cfg : Policy) :
    Indexed (s.makeRoom A now cfg).1 ∧ (s.makeRoom A now cfg).1.limit = s.limit ∧
      ((s.makeRoom A now cfg).2 = true → (s.makeRoom A now cfg).1.expiry.size < s.limit) := by
  unfold BucketStore.makeRoom
  split
  · rename_i hfull
    have hcount := h.count
    have hroom := h.room
    obtain ⟨hindexed, hsize⟩ := h.retire A (by omega) now
    have hkeep := retire_limit A s now
    split
    · rename_i s' heq
      rw [heq] at hindexed hsize hkeep
      have hsize : s'.expiry.size = s.expiry.size - 1 := hsize
      refine ⟨hindexed, hkeep, fun _ => ?_⟩
      show s'.expiry.size < s.limit
      omega
    · rename_i s' heq
      rw [heq] at hindexed hsize hkeep
      have hsize : s'.expiry.size = s.expiry.size := hsize
      split
      · obtain ⟨hpop, hsize'⟩ := hindexed.popOldest (show 0 < s'.expiry.size by omega)
        have hsize' : s'.popOldest.expiry.size = s'.expiry.size - 1 := hsize'
        refine ⟨hpop, hkeep, fun _ => ?_⟩
        show s'.popOldest.expiry.size < s.limit
        omega
      · exact ⟨hindexed, hkeep, fun hno => absurd hno (by simp)⟩
  · rename_i hfree
    have hcount := h.count
    refine ⟨h, rfl, fun _ => ?_⟩
    show s.expiry.size < s.limit
    omega

theorem create (h : Indexed s) {d : κ} (hd : s.buckets.get d = none)
    (hroom : s.expiry.size < s.limit) (now : Time) :
    Indexed (s.create A d now) ∧ (s.create A d now).expiry.Mem s.cells.size := by
  have hnew : ¬ s.expiry.Mem s.cells.size := fun hmem =>
    absurd (h.allocated _ hmem) (lt_irrefl _)
  have hcell : ∀ q, s.expiry.Mem q →
      (s.cells.alloc { key := d, account := A.fresh now }).cell q = s.cells.cell q := by
    intro q hq
    rw [Heap.cell_alloc, if_neg (h.allocated q hq).ne]
  have hself : (s.cells.alloc { key := d, account := A.fresh now }).cell s.cells.size =
      { key := d, account := A.fresh now } := by
    rw [Heap.cell_alloc, if_pos rfl]
  have hvalid₀ : Slots.Valid
      (fun p => ((s.cells.alloc { key := d, account := A.fresh now }).cell p).fullAt) s.expiry :=
    h.valid.congr fun q hq => congrArg Bucket.fullAt (hcell q hq)
  obtain ⟨hvalid, hsize, hmem⟩ := Slots.push_valid hvalid₀ hnew
  refine ⟨⟨hvalid, fun q hq => ?_, fun e q => ?_, ?_, ?_⟩, (hmem _).2 (Or.inl rfl)⟩
  · show q < s.cells.size + 1
    rcases (hmem q).1 hq with rfl | hq
    · exact Nat.lt_succ_self _
    · exact (h.allocated q hq).trans (Nat.lt_succ_self _)
  · show Function.update s.buckets.get d (some s.cells.size) e = some q ↔ _ ∧
      ((s.cells.alloc { key := d, account := A.fresh now }).cell q).key = e
    by_cases he : e = d
    · rw [he, Function.update_self, Option.some.injEq]
      constructor
      · rintro rfl
        exact ⟨(hmem _).2 (Or.inl rfl), by rw [hself]⟩
      · rintro ⟨hq, hkey⟩
        rcases (hmem q).1 hq with rfl | hq
        · rfl
        · rw [hcell q hq] at hkey
          rw [(h.same d q).2 ⟨hq, hkey⟩] at hd
          cases hd
    · rw [Function.update_of_ne he, h.same e q]
      constructor
      · rintro ⟨hq, hkey⟩
        exact ⟨(hmem q).2 (Or.inr hq), by rw [hcell q hq, hkey]⟩
      · rintro ⟨hq, hkey⟩
        rcases (hmem q).1 hq with rfl | hq
        · rw [hself] at hkey
          exact absurd hkey.symm he
        · rw [hcell q hq] at hkey
          exact ⟨hq, hkey⟩
  · show (if (s.buckets.get d).isSome then s.buckets.len else s.buckets.len + 1) = _
    rw [hd, Option.isSome_none, if_neg (by simp), h.count]
    exact hsize.symm
  · exact hsize.le.trans hroom

end

end Indexed

/-! ### What the store counts for each digest -/

namespace BucketStore

variable {κ σ ν : Type} {s : BucketStore κ σ}

/-- The account of a digest, if it has a bucket. -/
def view (s : BucketStore κ σ) (d : κ) : Option σ :=
  (s.buckets.get d).map fun p => (s.cells.cell p).account

theorem view_eq_none (s : BucketStore κ σ) (d : κ) : s.view d = none ↔ s.buckets.get d = none :=
  Option.map_eq_none_iff

theorem view_of_mem (h : Indexed s) {p : ℕ} (hp : s.expiry.Mem p) :
    s.view (s.cells.cell p).key = some (s.cells.cell p).account := by
  rw [view, (h.same _ p).2 ⟨hp, rfl⟩, Option.map_some]

/-- Changes that keep the accounts are not seen. -/
theorem view_modify (s : BucketStore κ σ) (p : ℕ) {f : Bucket κ σ → Bucket κ σ}
    (hf : ∀ b, (f b).account = b.account) (expiry : Slots) :
    BucketStore.view { s with
      cells := s.cells.modify p f
      expiry := expiry } = s.view := by
  funext d
  show (s.buckets.get d).map _ = (s.buckets.get d).map _
  refine congrArg (fun g => (s.buckets.get d).map g) (funext fun q => ?_)
  rw [Heap.cell_modify]
  split
  · rename_i hq
    rw [hf, hq]
  · rfl

theorem view_reindex (s : BucketStore κ σ) (p : ℕ) (fullAt : Time) :
    (s.reindex p fullAt).view = s.view :=
  view_modify s p (f := fun b => { b with fullAt := fullAt }) (fun _ => rfl) _

section

variable [DecidableEq κ]

/-- A new account of one bucket is the new account of its digest. -/
theorem view_setAccount (h : Indexed s) {p : ℕ} (hp : s.expiry.Mem p) (a : σ) :
    (s.setAccount p a).view = Function.update s.view (s.cells.cell p).key (some a) := by
  funext d
  have hcell : ∀ q, ((s.cells.modify p fun b => { b with account := a }).cell q).account =
      if q = p then a else (s.cells.cell q).account := by
    intro q
    rw [Heap.cell_modify]
    split <;> rfl
  show (s.buckets.get d).map (fun q =>
    ((s.cells.modify p fun b => { b with account := a }).cell q).account) = _
  simp only [hcell]
  by_cases hd : d = (s.cells.cell p).key
  · rw [hd, Function.update_self, (h.same _ p).2 ⟨hp, rfl⟩, Option.map_some, if_pos rfl]
  · rw [Function.update_of_ne hd, view]
    cases hget : s.buckets.get d with
    | none => rfl
    | some q =>
      have hqp : q ≠ p := fun hqp => hd (by rw [← ((h.same d q).1 hget).2, hqp])
      rw [Option.map_some, Option.map_some, if_neg hqp]

theorem view_popOldest (h : Indexed s) (hpos : 0 < s.expiry.size) :
    s.popOldest.view = Function.update s.view (s.cells.cell (s.expiry.item 0)).key none := by
  have hroot := (Slots.pop_valid h.valid hpos).1
  funext d
  show (Function.update s.buckets.get (s.cells.cell (s.expiry.pop s.fullAt).1).key none d).map _ = _
  rw [hroot]
  by_cases hd : d = (s.cells.cell (s.expiry.item 0)).key
  · rw [hd, Function.update_self, Function.update_self]
    rfl
  · rw [Function.update_of_ne hd, Function.update_of_ne hd]
    rfl

variable (A : Accounting σ ν)

/-- A retirement looks at one account, and forgets it when its bucket is idle or full. -/
theorem view_retire (h : Indexed s) (hpos : 0 < s.expiry.size) (now : Time) :
    (s.retire A now).1.view = s.view ∨
      ∃ k x, s.view k = some x ∧
        ((s.retire A now).1.view = Function.update s.view k (some (A.settle x now).1) ∨
          (((s.cells.cell (s.expiry.item 0)).idleExpired now = true ∨
            (A.settle x now).2 = true) ∧
            (s.retire A now).1.view = Function.update s.view k none)) := by
  have hmem := Indexed.mem_root hpos
  unfold BucketStore.retire
  simp only
  split
  · exact Or.inl rfl
  refine Or.inr ⟨_, _, view_of_mem h hmem, ?_⟩
  have hview := view_setAccount h hmem (A.settle (s.cells.cell (s.expiry.item 0)).account now).1
  split
  · rename_i hfree
    rw [Bool.or_eq_true] at hfree
    refine Or.inr ⟨hfree, ?_⟩
    have hkey : ∀ a, ((s.setAccount (s.expiry.item 0) a).cells.cell (s.expiry.item 0)).key =
        (s.cells.cell (s.expiry.item 0)).key := fun a => by
      rw [setAccount, Heap.cell_modify, if_pos rfl]
    have hpop : ∀ a, (s.setAccount (s.expiry.item 0) a).popOldest.view =
        Function.update (s.setAccount (s.expiry.item 0) a).view
          ((s.setAccount (s.expiry.item 0) a).cells.cell (s.expiry.item 0)).key none :=
      fun a => view_popOldest (h.setAccount _ a) hpos
    rw [hpop, hview, hkey, Function.update_idem]
  · left
    split
    · exact hview
    · exact (view_reindex _ _ _).trans hview

theorem view_create (h : Indexed s) (d : κ) (now : Time) :
    (s.create A d now).view = Function.update s.view d (some (A.fresh now)) := by
  funext e
  show (Function.update s.buckets.get d (some s.cells.size) e).map (fun q =>
    ((s.cells.alloc { key := d, account := A.fresh now }).cell q).account) = _
  by_cases he : e = d
  · rw [he, Function.update_self, Function.update_self, Option.map_some, Heap.cell_alloc,
      if_pos rfl]
  · rw [Function.update_of_ne he, Function.update_of_ne he, view]
    cases hget : s.buckets.get e with
    | none => rfl
    | some q =>
      have hq : q ≠ s.cells.size := (h.allocated q ((h.same e q).1 hget).1).ne
      rw [Option.map_some, Option.map_some, Heap.cell_alloc, if_neg hq]

theorem view_charge (h : Indexed s) {p : ℕ} (hp : s.expiry.Mem p) (now : Time) (cfg : Policy) :
    (s.charge A p now cfg).1.view = Function.update s.view (s.cells.cell p).key
      (some (A.use (s.cells.cell p).account now).1) :=
  (view_reindex _ p _).trans ((view_modify _ p (f := fun b =>
    { b with idleAt := if 0 < cfg.idleTTL then now + cfg.idleTTL else 0 }) (fun _ => rfl) _).trans
    (view_setAccount h hp _))

/-- A digest without a bucket has none after a slot was freed for it. -/
theorem get_makeRoom (h : Indexed s) (hlimit : 0 < s.limit) (now : Time)
    (cfg : Policy) {d : κ} (hd : s.buckets.get d = none) :
    (s.makeRoom A now cfg).1.buckets.get d = none := by
  have hretire : 0 < s.expiry.size → (s.retire A now).1.buckets.get d = none := by
    intro hpos
    rw [← view_eq_none] at hd ⊢
    rcases view_retire A h hpos now with hview | ⟨k, x, hk, hview | ⟨_, hview⟩⟩
    · rw [hview, hd]
    all_goals
      have hne : d ≠ k := fun hdk => by rw [hdk, hk] at hd; cases hd
      rw [hview, Function.update_of_ne hne, hd]
  unfold BucketStore.makeRoom
  split
  · have hcount := h.count
    have hsome := hretire (by omega)
    split
    · rename_i s' heq
      rwa [heq] at hsome
    · rename_i s' heq
      rw [heq] at hsome
      split
      · show Function.update s'.buckets.get (s'.cells.cell (s'.expiry.pop s'.fullAt).1).key none d =
          none
        by_cases hk : d = (s'.cells.cell (s'.expiry.pop s'.fullAt).1).key
        · rw [← hk, Function.update_self]
        · rw [Function.update_of_ne hk]
          exact hsome
      · exact hsome
  · exact hd

/-- **One call keeps the index.** -/
theorem access_indexed (h : Indexed s) (hlimit : 0 < s.limit) (d : κ) (now : Time) (cfg : Policy) :
    Indexed (s.access A d now cfg).1 ∧ (s.access A d now cfg).1.limit = s.limit := by
  have hidle := h.expireIdle d now
  have hkeep : (s.expireIdle d now).limit = s.limit := by
    unfold BucketStore.expireIdle
    split
    · rfl
    · split <;> rfl
  unfold BucketStore.access
  simp only
  split
  · rename_i p hget
    exact ⟨hidle.charge A ((hidle.same d p).1 hget).1 now cfg, hkeep⟩
  · rename_i hget
    have hlim := hkeep.symm ▸ hlimit
    obtain ⟨hroom, hlim', hfree⟩ := hidle.makeRoom A hlim now cfg
    have hnone := get_makeRoom A hidle hlim now cfg hget
    split
    · rename_i s' heq
      rw [heq] at hroom hlim'
      exact ⟨hroom, hlim'.trans hkeep⟩
    · rename_i s' heq
      rw [heq] at hroom hlim' hfree hnone
      have hsize : s'.expiry.size < s'.limit := (hfree rfl).trans_eq hlim'.symm
      obtain ⟨hcreate, hmem⟩ := hroom.create A hnone hsize now
      exact ⟨hcreate.charge A hmem now cfg, hlim'.trans hkeep⟩

/-! ### One call without idle times -/

omit [DecidableEq κ] in
def Timeless (s : BucketStore κ σ) : Prop := ∀ p, s.expiry.Mem p → (s.cells.cell p).idleAt = 0

omit [DecidableEq κ] in
theorem Timeless.not_idle (h : s.Timeless) {p : ℕ} (hp : s.expiry.Mem p) (now : Time) :
    (s.cells.cell p).idleExpired now = false := by
  simp [Bucket.idleExpired, h p hp]

omit [DecidableEq κ] in
theorem Timeless.setAccount (h : s.Timeless) (p : ℕ) (a : σ) : (s.setAccount p a).Timeless := by
  intro q hq
  show ((s.cells.modify p fun b => { b with account := a }).cell q).idleAt = 0
  rw [Heap.cell_modify]
  split
  · rename_i hqp
    rw [← hqp]
    exact h q hq
  · exact h q hq

omit [DecidableEq κ] in
theorem Timeless.reindex (hi : Indexed s) (h : s.Timeless) {p : ℕ} (hp : s.expiry.Mem p)
    (fullAt : Time) : (s.reindex p fullAt).Timeless := by
  intro q hq
  have hq' := ((hi.reindex hp fullAt).2.2 q).1 hq
  show ((s.cells.modify p fun b => { b with fullAt := fullAt }).cell q).idleAt = 0
  rw [Heap.cell_modify]
  split
  · rename_i hqp
    rw [← hqp]
    exact h q hq'
  · exact h q hq'

theorem Timeless.popOldest (hi : Indexed s) (h : s.Timeless) (hpos : 0 < s.expiry.size) :
    s.popOldest.Timeless := fun q hq =>
  h q (((Slots.pop_valid hi.valid hpos).2.2.2 q).1 hq).1

theorem Timeless.retire (hi : Indexed s) (h : s.Timeless)
    (hpos : 0 < s.expiry.size) (now : Time) : (s.retire A now).1.Timeless := by
  unfold BucketStore.retire
  simp only
  split
  · exact h
  have hmod := h.setAccount (s.expiry.item 0)
    (A.settle (s.cells.cell (s.expiry.item 0)).account now).1
  split
  · exact hmod.popOldest (hi.setAccount _ _) hpos
  · split
    · exact hmod
    · exact hmod.reindex (hi.setAccount _ _) (Indexed.mem_root hpos) _

theorem Timeless.create (hi : Indexed s) (h : s.Timeless) {d : κ} (now : Time)
    : (s.create A d now).Timeless := by
  have hnew : ¬ s.expiry.Mem s.cells.size := fun hmem =>
    absurd (hi.allocated _ hmem) (lt_irrefl _)
  intro q hq
  have hcell : ∀ q, s.expiry.Mem q →
      (s.cells.alloc { key := d, account := A.fresh now }).cell q = s.cells.cell q := by
    intro q hq
    rw [Heap.cell_alloc, if_neg (hi.allocated q hq).ne]
  have hvalid : Slots.Valid
      (fun p => ((s.cells.alloc { key := d, account := A.fresh now }).cell p).fullAt) s.expiry :=
    hi.valid.congr fun q hq => congrArg Bucket.fullAt (hcell q hq)
  have hmem := (Slots.push_valid hvalid hnew).2.2 q
  show ((s.cells.alloc { key := d, account := A.fresh now }).cell q).idleAt = 0
  rcases hmem.1 hq with rfl | hq
  · rw [Heap.cell_alloc, if_pos rfl]
  · rw [hcell q hq]
    exact h q hq

omit [DecidableEq κ] in
theorem Timeless.charge (hi : Indexed s) (h : s.Timeless) {p : ℕ}
    (hp : s.expiry.Mem p) (now : Time) : (s.charge A p now {}).1.Timeless := by
  have hused := h.setAccount p (A.use (s.cells.cell p).account now).1
  have hindexed := hi.setAccount p (A.use (s.cells.cell p).account now).1
  refine Timeless.reindex (hindexed.modify p (f := fun b => { b with idleAt := 0 })
    (fun _ => rfl) fun _ => rfl) (fun q hq => ?_) hp _
  show ((Heap.modify _ p fun b : Bucket κ σ => { b with idleAt := 0 }).cell q).idleAt = 0
  rw [Heap.cell_modify]
  split
  · rfl
  · exact hused q hq

/-- What a retirement can do to the counts: nothing, a refill of one, or forgetting a full one. -/
def Aged (now : Time) (v v' : κ → Option σ) : Prop :=
  v' = v ∨ ∃ k x, v k = some x ∧
    (v' = Function.update v k (some (A.settle x now).1) ∨
      ((A.settle x now).2 = true ∧ v' = Function.update v k none))

/-- **One call, as the counts see it.**  Without idle times a call ages the counts, and then is
refused for want of a slot or counts the request on its digest, from a fresh count when there was
none. -/
theorem access_view (h : Indexed s) (htime : s.Timeless) (hlimit : 0 < s.limit)
    (d : κ) (now : Time) :
    (s.access A d now {}).1.Timeless ∧
      ∃ v, Aged A now s.view v ∧
        (((s.access A d now {}).2 = none ∧ (s.access A d now {}).1.view = v) ∨
          ∃ x, (v d = some x ∨ v d = none ∧ x = A.fresh now) ∧
            (s.access A d now {}).2 = some (A.use x now).2 ∧
            (s.access A d now {}).1.view = Function.update v d (some (A.use x now).1)) := by
  have hexpire : s.expireIdle d now = s := by
    unfold BucketStore.expireIdle
    split
    · rfl
    · rename_i p hget
      rw [htime.not_idle ((h.same d p).1 hget).1, if_neg (by simp)]
  unfold BucketStore.access
  simp only [hexpire]
  split
  · rename_i p hget
    obtain ⟨hp, hkey⟩ := (h.same d p).1 hget
    refine ⟨htime.charge A h hp now, s.view, Or.inl rfl, Or.inr ⟨(s.cells.cell p).account,
      Or.inl ?_, rfl, ?_⟩⟩
    · rw [← hkey]
      exact view_of_mem h hp
    · rw [view_charge A h hp, hkey]
  · rename_i hget
    obtain ⟨hroom, hlim, hfree⟩ := h.makeRoom A hlimit now {}
    have hnone := get_makeRoom A h hlimit now {} hget
    have haged : (s.makeRoom A now {}).1.Timeless ∧
        Aged A now s.view (s.makeRoom A now {}).1.view := by
      unfold BucketStore.makeRoom
      split
      · have hcount := h.count
        have hpos : 0 < s.expiry.size := by omega
        have hretire := htime.retire A h hpos now
        have hview := view_retire A h hpos now
        rw [htime.not_idle (Indexed.mem_root hpos)] at hview
        simp only [Bool.false_eq_true, false_or] at hview
        split
        · rename_i s' heq
          rw [heq] at hretire hview
          exact ⟨hretire, hview⟩
        · rename_i s' heq
          rw [heq] at hretire hview
          exact ⟨hretire, hview⟩
      · exact ⟨htime, Or.inl rfl⟩
    split
    · rename_i s' heq
      rw [heq] at haged
      exact ⟨haged.1, s'.view, haged.2, Or.inl ⟨rfl, rfl⟩⟩
    · rename_i s' heq
      rw [heq] at hroom hlim hfree hnone haged
      have hsize : s'.expiry.size < s'.limit := (hfree rfl).trans_eq hlim.symm
      obtain ⟨hcreate, hmem⟩ := hroom.create A hnone hsize now
      have hcell : (s'.create A d now).cells.cell s'.cells.size =
          { key := d, account := A.fresh now } := by
        show (s'.cells.alloc { key := d, account := A.fresh now }).cell s'.cells.size = _
        rw [Heap.cell_alloc, if_pos rfl]
      refine ⟨(haged.1.create A hroom now).charge A hcreate hmem now, s'.view, haged.2,
        Or.inr ⟨A.fresh now, Or.inr ⟨(view_eq_none s' d).2 hnone, rfl⟩, ?_, ?_⟩⟩
      · show some (A.use ((s'.create A d now).cells.cell s'.cells.size).account now).2 = _
        rw [hcell]
      · rw [view_charge A hcreate hmem, hcell, view_create A hroom, Function.update_idem]

end

end BucketStore

end Statute.Limit
