import Statute.Middleware.Tree

/-!
# Response-header operations at commitment

`headers.go`: the response-header operations of a group are applied by a `headerResponseWriter` around
everything inside the group, once, when the header is committed.  A cache inside has to judge the header that
will be delivered, so it projects the operations, which the request carries in its context, onto a copy.

* `Passage` — what a request carries to a point of its route: the operations in its context and the writers
  around its response;
* `Passage.Balanced` — the operations in the context are those of the writers, innermost first;
* `OnWay` — the operations that were applied and those that are pending make up the operations of the writers;
* `projection_delivered_iff` — the projection at a cache is the header that is delivered, unless a handler
  switches protocols: on HTTP/1 the status 101 commits the header, and the writers take it for an informational
  one and let it pass without applying their operations (`switch_skips_operations`).
-/

namespace Statute.Middleware

open Statute.Base

/-! ### Header operations -/

/-- A `headerOp` of a route; the ones of a request identity are not among them. -/
structure HeaderOp where
  op : MiddlewareType
  name : Bytes := []
  value : Bytes := []
  ensureVary : Bool := false
  httpsOnly : Bool := false
deriving DecidableEq

def appendVary (h : Header) (value : Bytes) : Header :=
  if h.entries.any fun entry => equalFold entry.1 (lit "Vary") &&
      entry.2.any fun current => (split (ch ',') current).any fun part => equalFold (trimSpace part) value
  then h
  else h.add (lit "Vary") value

def applyHeaderOp (h : Header) (op : MiddlewareType) (name value : Bytes) : Header :=
  match op with
  | .setRequestHeader | .setResponseHeader => h.set name value
  | .addRequestHeader | .addResponseHeader => h.add name value
  | .removeRequestHeader | .removeResponseHeader => h.del name
  | _ => h

def HeaderOp.apply (op : HeaderOp) (h : Header) : Header :=
  if op.ensureVary then appendVary h op.value else applyHeaderOp h op.op op.name op.value

/-- The response operations of `compileHeaderOps`. -/
def compileResponseOps (own : List Leaf) : List HeaderOp :=
  let ops := (own.filter fun m => isResponseHeaderOp m.type).map fun m =>
    { op := m.type, name := m.headerName, value := m.headerValue, httpsOnly := m.headerHTTPSOnly : HeaderOp }
  if own.any fun m => m.type == .cors then ops ++ [{ op := .timeout, value := lit "Origin", ensureVary := true }]
  else ops

def plainHTTPHeaderOps (ops : List HeaderOp) : List HeaderOp := ops.filter fun op => !op.httpsOnly

/-- The operations `withHeaderMiddleware` selects for a request. -/
def selectedResponseOps (tls : Bool) (own : List Leaf) : List HeaderOp :=
  if tls then compileResponseOps own else plainHTTPHeaderOps (compileResponseOps own)

/-! ### What a request carries -/

/-- What a request carries to a point of its route, the innermost group first. -/
structure Passage where
  /-- the groups entered, each with the middlewares of its own -/
  groups : List (List Leaf)
  /-- the operations of its context -/
  ops : List HeaderOp
  /-- the operations of the writers around its response -/
  writers : List (List HeaderOp)
deriving DecidableEq

/-- Before any group. -/
def Passage.start : Passage := ⟨[], [], []⟩

/-- `withHeaderMiddleware`, as far as the response is concerned. -/
def Passage.enter (tls : Bool) (own : List Leaf) (p : Passage) : Passage :=
  let selected := selectedResponseOps tls own
  if selected = [] then { p with groups := own :: p.groups }
  else { groups := own :: p.groups, ops := selected ++ p.ops, writers := selected :: p.writers }

/-- The handlers that list the middlewares of a route, each with what the request carries to it. -/
def passing (tls : Bool) : Wrapping (Bytes → Passage → List (Leaf × Passage)) where
  applyMiddleware m next := fun name p => if m.isHoisted then next name p else (m, p) :: next name p
  withHeaderMiddleware own next := fun name p => next name (p.enter tls own)
  withPathRewrite _ next := next
  onListeners names handler next :=
    fun name p => if listenerMatches names name then handler name p else next name p

/-- Each middleware of a route that a request on a listener passes, with what it carries there. -/
def passages (tls : Bool) (mws : Chain) (name : Bytes) : List (Leaf × Passage) :=
  wrapRouteMiddleware (passing tls) mws (fun _ _ => []) name Passage.start

/-- The context and the writers hold the operations of the groups, the innermost group first, and every writer
has some. -/
def Passage.Balanced (tls : Bool) (p : Passage) : Prop :=
  p.ops = (p.groups.map (selectedResponseOps tls)).flatten ∧ p.writers.flatten = p.ops ∧
    ∀ ops ∈ p.writers, ops ≠ []

theorem Passage.Balanced.enter {tls : Bool} {p : Passage} (h : p.Balanced tls) (own : List Leaf) :
    (p.enter tls own).Balanced tls := by
  rw [Passage.enter]
  split
  · rename_i hnone
    refine ⟨?_, h.2⟩
    rw [List.map_cons, List.flatten_cons, hnone, List.nil_append]
    exact h.1
  · rename_i hsome
    refine ⟨?_, ?_, List.forall_mem_cons.mpr ⟨hsome, h.2.2⟩⟩
    · rw [List.map_cons, List.flatten_cons, ← h.1]
    · rw [List.flatten_cons, h.2.1]

/-- Wherever a request comes, its context and its writers agree. -/
theorem passages_balanced {tls : Bool} {mws : Chain} {name : Bytes} :
    ∀ entry ∈ passages tls mws name, entry.2.Balanced tls := by
  refine wrapRouteMiddleware_invariant (passing tls)
    (P := fun handler => ∀ p : Passage, p.Balanced tls → ∀ entry ∈ handler name p, entry.2.Balanced tls)
    ?_ ?_ ?_ ?_ mws ?_ Passage.start ⟨rfl, rfl, by simp [Passage.start]⟩
  · intro m next hnext p hp
    show ∀ entry ∈ (if m.isHoisted then next name p else (m, p) :: next name p), entry.2.Balanced tls
    split
    · exact hnext p hp
    · exact List.forall_mem_cons.mpr ⟨hp, hnext p hp⟩
  · intro own next hnext p hp
    exact hnext _ (hp.enter own)
  · intro own next hnext
    exact hnext
  · intro names handler next hhandler hnext p hp
    show ∀ entry ∈ (if listenerMatches names name then handler name p else next name p), entry.2.Balanced tls
    split
    · exact hhandler p hp
    · exact hnext p hp
  · intro p _ entry hentry
    exact absurd hentry List.not_mem_nil

/-! ### The writers -/

/-- A `headerResponseWriter`. -/
structure HeaderWriter where
  ops : List HeaderOp
  applied : Bool := false

/-- The header map of the response and the operations that were applied to it, with a copy of both from when
the header was committed. -/
structure Conn where
  header : Header
  log : List HeaderOp := []
  committed : Option (Header × List HeaderOp) := none

/-- The operations of a list, in order. -/
def applyAll (ops : List HeaderOp) (h : Header) : Header := ops.foldl (fun h op => op.apply h) h

def HeaderWriter.applyOps (w : HeaderWriter) (c : Conn) : HeaderWriter × Conn :=
  if w.applied then (w, c)
  else ({ w with applied := true }, { c with header := applyAll w.ops c.header, log := c.log ++ w.ops })

/-- A call of a `ResponseWriter`.  Whether the underlying writer commits on an empty copy or on a flush is its
own affair. -/
inductive Call where
  | writeHeader (code : ℕ)
  | write
  | readFrom (commits : Bool)
  | flush (commits : Bool)

/-- The call makes a `headerResponseWriter` apply its operations. -/
def Call.triggers : Call → Bool
  | .writeHeader code => 200 ≤ code
  | _ => true

/-- The call makes the underlying writer commit the header.  The status 101 is final on HTTP/1; on the multiplexed
protocols it is informational. -/
def Call.commits (multiplexed : Bool) : Call → Bool
  | .writeHeader code => 200 ≤ code || (code == 101 && !multiplexed)
  | .write => true
  | .readFrom commits | .flush commits => commits

def Conn.commit (c : Conn) : Conn :=
  if c.committed = none then { c with committed := some (c.header, c.log) } else c

/-- A call on the innermost writer, which hands it to the next one. -/
def serveCall (multiplexed : Bool) (call : Call) : List HeaderWriter → Conn → List HeaderWriter × Conn
  | [], c => ([], if call.commits multiplexed then c.commit else c)
  | w :: ws, c =>
    let first := if call.triggers then w.applyOps c else (w, c)
    let rest := serveCall multiplexed call ws first.2
    (first.1 :: rest.1, rest.2)

/-- What happens to a response: a call on the innermost writer, or the return of the handler inside it. -/
inductive Event where
  | call (call : Call)
  | returns

/-- The handlers inside the writers return, the innermost first. -/
def returnAll (ws : List HeaderWriter) (c : Conn) : Conn := ws.foldl (fun c w => (w.applyOps c).2) c

/-- A response.  When nothing more happens the handlers inside the writers that are left return, and behind the
outermost writer the server commits what is not committed. -/
def respond (multiplexed : Bool) : List Event → List HeaderWriter → Conn → Conn
  | [], ws, c => (returnAll ws c).commit
  | .returns :: events, [], c => respond multiplexed events [] c
  | .returns :: events, w :: ws, c => respond multiplexed events ws (w.applyOps c).2
  | .call call :: events, ws, c =>
    respond multiplexed events (serveCall multiplexed call ws c).1 (serveCall multiplexed call ws c).2

/-- A handler inside one of the writers switches protocols on HTTP/1 before anything made the writers apply their
operations. -/
def switchesEarly (multiplexed : Bool) : List Event → ℕ → Bool
  | [], _ | _, 0 => false
  | .returns :: events, n + 1 => switchesEarly multiplexed events n
  | .call call :: events, n + 1 =>
    !call.triggers && (call.commits multiplexed || switchesEarly multiplexed events (n + 1))

def responseHeadersForCache (ops : List HeaderOp) (h : Header) : Header := if ops = [] then h else applyAll ops h

/-! ### Whole responses -/

/-- The operations that are still to be applied. -/
def pending (ws : List HeaderWriter) : List HeaderOp := ((ws.filter fun w => !w.applied).map HeaderWriter.ops).flatten

theorem applyAll_append (a b : List HeaderOp) (h : Header) : applyAll (a ++ b) h = applyAll b (applyAll a h) :=
  List.foldl_append

theorem pending_cons (w : HeaderWriter) (ws : List HeaderWriter) :
    pending (w :: ws) = (if w.applied then [] else w.ops) ++ pending ws := by
  rw [pending, pending, List.filter_cons]
  cases w.applied with
  | true => rfl
  | false => rfl

/-- The response is on its way: what was applied and what is pending make up the operations. -/
structure OnWay (ops : List HeaderOp) (h : Header) (ws : List HeaderWriter) (c : Conn) : Prop where
  log : c.log ++ pending ws = ops
  header : c.header = applyAll c.log h

variable {ops : List HeaderOp} {h : Header} {w : HeaderWriter} {ws : List HeaderWriter} {c : Conn}
  {multiplexed : Bool}

@[simp] theorem committed_applyOps : (w.applyOps c).2.committed = c.committed := by
  rw [HeaderWriter.applyOps]
  split <;> rfl

/-- One writer applies its operations next. -/
theorem OnWay.applyOps (honway : OnWay ops h (w :: ws) c) :
    OnWay ops h ws (w.applyOps c).2 ∧ (w.applyOps c).1.applied = true := by
  obtain ⟨hlog, hheader⟩ := honway
  rw [pending_cons] at hlog
  rw [HeaderWriter.applyOps]
  cases happlied : w.applied with
  | true =>
    rw [happlied] at hlog
    exact ⟨⟨hlog, hheader⟩, happlied⟩
  | false =>
    rw [happlied] at hlog
    refine ⟨⟨?_, ?_⟩, rfl⟩
    · show c.log ++ w.ops ++ pending ws = ops
      rw [List.append_assoc]
      exact hlog
    · show applyAll w.ops c.header = applyAll (c.log ++ w.ops) h
      rw [applyAll_append, ← hheader]

theorem OnWay.commit (honway : OnWay ops h ws c) : OnWay ops h ws c.commit := by
  rw [Conn.commit]
  split
  · exact ⟨honway.log, honway.header⟩
  · exact honway

theorem Conn.committed_commit {x : Header × List HeaderOp} (hx : c.committed = some x) :
    c.commit.committed = some x := by
  rw [Conn.commit, if_neg (by rw [hx]; exact Option.some_ne_none _)]
  exact hx

theorem Conn.committed_commit_of_none (hnone : c.committed = none) :
    c.commit.committed = some (c.header, c.log) := by
  rw [Conn.commit, if_pos hnone]

/-- A status that is informational to the writers goes past them. -/
theorem serveCall_of_not_triggers {call : Call} (htriggers : call.triggers = false) (ws : List HeaderWriter)
    (c : Conn) :
    serveCall multiplexed call ws c = (ws, if call.commits multiplexed then c.commit else c) := by
  induction ws generalizing c with
  | nil => rfl
  | cons w ws ih =>
    rw [serveCall, htriggers, if_neg Bool.false_ne_true, ih]

/-- **A call** applies the pending operations in order if it is no informational status. -/
theorem OnWay.serveCall {call : Call} (htriggers : call.triggers = true) (honway : OnWay ops h ws c) :
    OnWay ops h (Middleware.serveCall multiplexed call ws c).1 (Middleware.serveCall multiplexed call ws c).2 ∧
      pending (Middleware.serveCall multiplexed call ws c).1 = [] := by
  induction ws generalizing c with
  | nil =>
    rw [Middleware.serveCall]
    dsimp only
    split
    · exact ⟨honway.commit, rfl⟩
    · exact ⟨honway, rfl⟩
  | cons w ws ih =>
    rw [Middleware.serveCall, htriggers, if_pos rfl]
    obtain ⟨hfirst, happlied⟩ := honway.applyOps
    obtain ⟨⟨hlog, hheader⟩, hpending⟩ := ih hfirst
    have hcons : ∀ ws', pending ((w.applyOps c).1 :: ws') = pending ws' := by
      intro ws'
      rw [pending_cons, happlied, if_pos rfl, List.nil_append]
    exact ⟨⟨by rw [hcons]; exact hlog, hheader⟩, by rw [hcons]; exact hpending⟩

/-- Behind every operation the header is committed with all of them. -/
theorem OnWay.committed_commit (honway : OnWay ops h ws c) (hpending : pending ws = [])
    (hcommitted : c.committed = none ∨ c.committed = some (applyAll ops h, ops)) :
    c.commit.committed = some (applyAll ops h, ops) := by
  rcases hcommitted with hnone | hsome
  · rw [Conn.committed_commit_of_none hnone, honway.header, ← honway.log, hpending, List.append_nil]
  · exact Conn.committed_commit hsome

/-- A call behind which every operation is applied commits, if at all, the header with all of them. -/
theorem committed_serveCall {call : Call} (htriggers : call.triggers = true) (honway : OnWay ops h ws c)
    (hcommitted : c.committed = none ∨ c.committed = some (applyAll ops h, ops)) :
    (Middleware.serveCall multiplexed call ws c).2.committed = none ∨
      (Middleware.serveCall multiplexed call ws c).2.committed = some (applyAll ops h, ops) := by
  induction ws generalizing c with
  | nil =>
    rw [Middleware.serveCall]
    dsimp only
    split
    · exact Or.inr (honway.committed_commit rfl hcommitted)
    · exact hcommitted
  | cons w ws ih =>
    rw [Middleware.serveCall, htriggers, if_pos rfl]
    exact ih honway.applyOps.1 (by rw [committed_applyOps]; exact hcommitted)

theorem OnWay.returnAll (honway : OnWay ops h ws c) :
    OnWay ops h [] (Middleware.returnAll ws c) ∧ (Middleware.returnAll ws c).committed = c.committed := by
  induction ws generalizing c with
  | nil => exact ⟨honway, rfl⟩
  | cons w ws ih =>
    obtain ⟨hrest, hcommitted⟩ := ih honway.applyOps.1
    exact ⟨hrest, hcommitted.trans committed_applyOps⟩

/-- **Every operation is applied once and in order**, whatever happens. -/
theorem OnWay.log_respond (events : List Event) (honway : OnWay ops h ws c) :
    (respond multiplexed events ws c).log = ops := by
  induction events generalizing ws c with
  | nil =>
    rw [respond, ← honway.returnAll.1.commit.log]
    exact (List.append_nil _).symm
  | cons event events ih =>
    cases event with
    | returns =>
      cases ws with
      | nil => exact ih honway
      | cons w ws => exact ih honway.applyOps.1
    | call call =>
      rw [respond]
      cases htriggers : call.triggers with
      | true => exact ih (honway.serveCall htriggers).1
      | false =>
        rw [serveCall_of_not_triggers htriggers]
        dsimp only
        split
        · exact ih honway.commit
        · exact ih honway

theorem serveCall_committed (call : Call) {x : Header × List HeaderOp} (hx : c.committed = some x) :
    (serveCall multiplexed call ws c).2.committed = some x := by
  induction ws generalizing c with
  | nil =>
    rw [serveCall]
    dsimp only
    split
    · exact Conn.committed_commit hx
    · exact hx
  | cons w ws ih =>
    rw [serveCall]
    refine ih ?_
    split
    · exact committed_applyOps.trans hx
    · exact hx

/-- What is committed stays. -/
theorem respond_committed (events : List Event) {x : Header × List HeaderOp} (hx : c.committed = some x) :
    (respond multiplexed events ws c).committed = some x := by
  induction events generalizing ws c with
  | nil =>
    have hall : ∀ (ws : List HeaderWriter) (c : Conn), c.committed = some x →
        (returnAll ws c).committed = some x := by
      intro ws
      induction ws with
      | nil => exact fun c hx => hx
      | cons w ws ih => exact fun c hx => ih _ (committed_applyOps.trans hx)
    exact Conn.committed_commit (hall ws c hx)
  | cons event events ih =>
    cases event with
    | returns =>
      cases ws with
      | nil => exact ih hx
      | cons w ws => exact ih (committed_applyOps.trans hx)
    | call call => exact ih (serveCall_committed call hx)

/-- With nothing pending, the header is committed with every operation. -/
theorem OnWay.respond_settled (events : List Event) (honway : OnWay ops h ws c) (hpending : pending ws = [])
    (hcommitted : c.committed = none ∨ c.committed = some (applyAll ops h, ops)) :
    (respond multiplexed events ws c).committed = some (applyAll ops h, ops) := by
  induction events generalizing ws c with
  | nil =>
    obtain ⟨hreturned, hsame⟩ := honway.returnAll
    exact hreturned.committed_commit rfl (by rw [hsame]; exact hcommitted)
  | cons event events ih =>
    cases event with
    | returns =>
      cases ws with
      | nil => exact ih honway rfl hcommitted
      | cons w ws =>
        have hrest : pending ws = [] := (List.append_eq_nil_iff.mp (pending_cons w ws ▸ hpending)).2
        exact ih honway.applyOps.1 hrest (by rw [committed_applyOps]; exact hcommitted)
    | call call =>
      rw [respond]
      cases htriggers : call.triggers with
      | true =>
        obtain ⟨hnext, hnone⟩ := honway.serveCall htriggers
        exact ih hnext hnone (committed_serveCall htriggers honway hcommitted)
      | false =>
        rw [serveCall_of_not_triggers htriggers]
        dsimp only
        split
        · exact ih honway.commit hpending (Or.inr (honway.committed_commit hpending hcommitted))
        · exact ih honway hpending hcommitted

/-- No writer has applied its operations, and each has some. -/
def Fresh (ws : List HeaderWriter) : Prop := ∀ w ∈ ws, w.applied = false ∧ w.ops ≠ []

/-- **A response** delivers the header with every operation exactly if no handler switches protocols before the
operations are applied. -/
theorem OnWay.respond_iff (events : List Event) (honway : OnWay ops h ws c) (hfresh : Fresh ws)
    (hnone : c.committed = none) :
    (respond multiplexed events ws c).committed = some (applyAll ops h, ops) ↔
      switchesEarly multiplexed events ws.length = false := by
  induction events generalizing ws c with
  | nil =>
    obtain ⟨hreturned, hsame⟩ := honway.returnAll
    exact iff_of_true (hreturned.committed_commit rfl (Or.inl (hsame.trans hnone))) (by rw [switchesEarly])
  | cons event events ih =>
    cases ws with
    | nil =>
      have hlate : switchesEarly multiplexed (event :: events) 0 = false := by
        rw [switchesEarly]
        simp
      exact iff_of_true (honway.respond_settled _ rfl (Or.inl hnone)) hlate
    | cons w ws =>
      cases event with
      | returns =>
        rw [respond]
        exact ih honway.applyOps.1 (fun v hv => hfresh v (List.mem_cons_of_mem w hv))
          (committed_applyOps.trans hnone)
      | call call =>
        rw [respond, List.length_cons, switchesEarly]
        cases htriggers : call.triggers with
        | true =>
          obtain ⟨hnext, hpending⟩ : OnWay ops h (Middleware.serveCall multiplexed call (w :: ws) c).1 _ ∧ _ :=
            honway.serveCall htriggers
          exact iff_of_true (hnext.respond_settled events hpending
            (committed_serveCall htriggers honway (Or.inl hnone))) rfl
        | false =>
          rw [serveCall_of_not_triggers htriggers]
          cases hcommits : call.commits multiplexed with
          | true =>
            -- the header goes out with operations of this writer still pending
            refine iff_of_false (fun hall => ?_) (by simp)
            rw [if_pos rfl, respond_committed events (Conn.committed_commit_of_none hnone)] at hall
            have hlog : c.log = ops := congrArg Prod.snd (Option.some.inj hall)
            have hpending := honway.log
            rw [hlog, pending_cons, (hfresh w List.mem_cons_self).1, List.append_right_eq_self] at hpending
            exact (hfresh w List.mem_cons_self).2 (List.append_eq_nil_iff.mp hpending).1
          | false => exact ih honway hfresh hnone

theorem onWay_start (writers : List (List HeaderOp)) (h : Header) :
    OnWay writers.flatten h (writers.map fun ops => { ops := ops }) { header := h } := by
  refine ⟨?_, rfl⟩
  show [] ++ pending _ = writers.flatten
  rw [List.nil_append]
  induction writers with
  | nil => rfl
  | cons ops writers ih =>
    rw [List.map_cons, pending_cons, ih]
    rfl

/-- **Projection.**  Wherever a request comes in a route, whatever header the handler inside leaves and whatever
mix of calls and returns commits the response, the operations of every group entered are applied once each, the
innermost group first and in the order they are declared; and the header that is delivered is the projection,
with all of them applied, exactly if no handler inside the writers switches protocols on HTTP/1 before they are
applied. -/
theorem projection_delivered_iff (tls multiplexed : Bool) (mws : Chain) (name : Bytes) (m : Leaf) (p : Passage)
    (hmem : (m, p) ∈ passages tls mws name) (h : Header) (events : List Event) :
    ((respond multiplexed events (p.writers.map fun ops => { ops := ops }) { header := h }).committed =
        some (responseHeadersForCache p.ops h, p.ops) ↔
      switchesEarly multiplexed events p.writers.length = false) ∧
    (respond multiplexed events (p.writers.map fun ops => { ops := ops }) { header := h }).log = p.ops ∧
    p.ops = (p.groups.map (selectedResponseOps tls)).flatten := by
  obtain ⟨hops, hwriters, hfresh⟩ := passages_balanced (m, p) hmem
  have hstart := onWay_start p.writers h
  rw [hwriters] at hstart
  refine ⟨?_, hstart.log_respond events, hops⟩
  have hprojection : responseHeadersForCache p.ops h = applyAll p.ops h := by
    rw [responseHeadersForCache]
    split
    · rename_i hnone
      rw [hnone]
      rfl
    · rfl
  have hunapplied : Fresh (p.writers.map fun ops => { ops := ops }) := by
    intro w hw
    obtain ⟨ops, hmem, rfl⟩ := List.mem_map.mp hw
    exact ⟨rfl, hfresh ops hmem⟩
  rw [hprojection, hstart.respond_iff events hunapplied rfl, List.length_map]

def cacheGroup : Chain :=
  .leaf { type := .setResponseHeader, headerName := lit "X", headerValue := lit "2" }
    (.leaf { type := .cache, cacheTTL := 60 } .nil)

/-- The group in a route with an operation of its own. -/
def nestedCache : Chain :=
  .leaf { type := .addResponseHeader, headerName := lit "X", headerValue := lit "1" } (.inOrder cacheGroup .nil)

/-- What a request carries to the cache of `nestedCache`. -/
def nestedPassage : Passage where
  groups := [cacheGroup.own, nestedCache.own]
  ops := selectedResponseOps true cacheGroup.own ++ selectedResponseOps true nestedCache.own
  writers := [selectedResponseOps true cacheGroup.own, selectedResponseOps true nestedCache.own]

theorem passages_nestedCache :
    ({ type := .cache, cacheTTL := 60 }, nestedPassage) ∈ passages true nestedCache [] := by
  have hroute : nestedCache.cacheBypass = false := by decide +kernel
  have hgroup : cacheGroup.cacheBypass = false := by decide +kernel
  rw [passages, wrapRouteMiddleware, hroute, nestedCache, wrapEach, wrapEach, wrapEach, Chain.grouped,
    if_neg Bool.false_ne_true, wrapRouteMiddleware, hgroup, cacheGroup, wrapEach, wrapEach, wrapEach]
  exact List.mem_cons_self

theorem projection_delivered_iff_nested :
    (responseHeadersForCache nestedPassage.ops ⟨[], List.nodup_nil⟩).values (lit "X") = [lit "2", lit "1"] ∧
      (respond false [.call (.writeHeader 103), .returns, .call .write]
          (nestedPassage.writers.map fun ops => { ops := ops }) { header := ⟨[], List.nodup_nil⟩ }).committed =
        some (responseHeadersForCache nestedPassage.ops ⟨[], List.nodup_nil⟩, nestedPassage.ops) :=
  ⟨by decide +kernel, (projection_delivered_iff true false nestedCache [] _ _ passages_nestedCache
    ⟨[], List.nodup_nil⟩ _).1.mpr (by decide)⟩

/-- **Switching protocols.**  A handler that answers 101 on HTTP/1 has its header delivered without the operations
of the groups around it, which the projection at the cache has. -/
theorem switch_skips_operations :
    ({ type := .cache, cacheTTL := 60 }, nestedPassage) ∈ passages true nestedCache [] ∧
      (responseHeadersForCache nestedPassage.ops ⟨[], List.nodup_nil⟩).values (lit "X") = [lit "2", lit "1"] ∧
      ((respond false [.call (.writeHeader 101)] (nestedPassage.writers.map fun ops => { ops := ops })
          { header := ⟨[], List.nodup_nil⟩ }).committed.map fun sent => sent.1.values (lit "X")) = some [] :=
  ⟨passages_nestedCache, by decide +kernel, by decide +kernel⟩

end Statute.Middleware
