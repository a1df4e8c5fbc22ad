import Statute.Client.Address

/-!
# Address selection

`selectedRequestIP` of `ip_selection.go`: the address an allow list or a rate limit attributes a
request to.  In forwarded mode it is a member of the `X-Forwarded-For` chain, counted or searched
from the right.

The chain of a request is every member of every field line.  `forwardedSelection` reads the first
line only, so the selection is a function of the trusted end of the chain exactly for requests with
one line (`forwarded_selection_iff`).
-/

namespace Statute.Client

open Statute.Base Statute.Docker

/-! ### The policy -/

/-- `IPSelection.Mode`. -/
inductive SelectionMode where
  | peer
  | verified
  | forwarded
deriving DecidableEq, Repr

structure IPSelection where
  mode : SelectionMode
  depth : ℕ := 0
  excludedIPs : List Bytes := []
  ipv6Subnet : Option ℕ := none

def headerXForwardedFor : Bytes := lit "X-Forwarded-For"

/-- The test of `forwardedSelection`'s loop: the trimmed member is skipped. -/
def skipped (excluded : List Prefix) (part : Bytes) : Bool :=
  part = [] ||
    match parseAddr part with
    | some ip => addrInPrefixes ip excluded
    | none => false

/-- `forwardedSelection` over the members of one line, each trimmed. -/
def selectMember (p : IPSelection) (parts : List Bytes) : Bytes :=
  if 0 < p.depth then
    if p.depth ≤ parts.length then (parts.reverse[p.depth - 1]?).getD [] else []
  else
    (parts.reverse.find? (fun part => !skipped (mustParsePrefixes p.excludedIPs) part)).getD []

def members (line : Bytes) : List Bytes := (split (ch ',') line).map trimSpace

def forwardedSelection (p : IPSelection) (r : Request) : Bytes :=
  selectMember p (members (r.header.get headerXForwardedFor))

/-- The IPv6 masking of `selectedRequestIP`. -/
def maskSubnet (subnet : Option ℕ) (value : Bytes) : Bytes :=
  match subnet, parseAddr value with
  | some bits, some ip =>
    if h : ip.is4 = false ∧ bits ≤ bitLen ip.is4 then
      (Prefix.masked ⟨ip.is4, ip.val, bits, ip.val_lt, h.2⟩).addr.text
    else value
  | _, _ => value

/-- The host of `RemoteAddr`, or all of it. -/
def remoteHost (r : Request) : Bytes :=
  match splitHostPort r.remoteAddr with
  | some (host, _) => host
  | none => r.remoteAddr

def selectedRequestIP (policy : Option IPSelection) (t : Trust) (r : Request) : Bytes :=
  match policy with
  | none => clientIP t r
  | some p =>
    let value := match p.mode with
      | .verified => clientIP t r
      | .peer => remoteHost r
      | .forwarded => forwardedSelection p r
    maskSubnet p.ipv6Subnet value

def allowIPsHandler (cidrs : List Bytes) (policy : Option IPSelection) (t : Trust) (r : Request) :
    Verdict :=
  match parseAddr (selectedRequestIP policy t r) with
  | none => .forbidden
  | some value =>
    if addrInPrefixes value (mustParsePrefixes cidrs) then .next else .forbidden

inductive RateLimitKey where
  | clientIP
  | hostHeader
  | requestHeader (name : Bytes)
  | peerIP
deriving DecidableEq, Repr

def rateLimitRequestKey (kind : RateLimitKey) (policy : Option IPSelection) (t : Trust)
    (r : Request) : Bytes :=
  match kind with
  | .hostHeader => r.host
  | .requestHeader name => r.header.get name
  | .peerIP => remoteHost r
  | .clientIP => selectedRequestIP policy t r

/-! ### The chain -/

def fieldLines (r : Request) : List Bytes := r.header.values headerXForwardedFor

def chain (r : Request) : List Bytes := (fieldLines r).flatMap members

/-- The chains agree on the part the policy trusts: the last `depth` members, or what stands from
the last member that is neither empty nor excluded. -/
def SameTrustedTail (p : IPSelection) (c₁ c₂ : List Bytes) : Prop :=
  if 0 < p.depth then
    p.depth ≤ c₁.length ∧ p.depth ≤ c₂.length ∧
      c₁.drop (c₁.length - p.depth) = c₂.drop (c₂.length - p.depth)
  else
    ∃ member tail, skipped (mustParsePrefixes p.excludedIPs) member = false ∧
      (∀ m ∈ tail, skipped (mustParsePrefixes p.excludedIPs) m = true) ∧
      (member :: tail) <:+ c₁ ∧ (member :: tail) <:+ c₂

variable {p : IPSelection}

/-- The selection depends on the trusted tail of the chain only. -/
theorem selectMember_congr {c₁ c₂ : List Bytes} (h : SameTrustedTail p c₁ c₂) :
    selectMember p c₁ = selectMember p c₂ := by
  unfold SameTrustedTail at h
  unfold selectMember
  split at h
  · rename_i hdepth
    obtain ⟨h₁, h₂, htail⟩ := h
    have hrev : c₁.reverse.take p.depth = c₂.reverse.take p.depth := by
      rw [List.take_reverse, List.take_reverse, htail]
    have hget : c₁.reverse[p.depth - 1]? = c₂.reverse[p.depth - 1]? := by
      rw [← List.getElem?_take_of_lt (by omega : p.depth - 1 < p.depth), hrev,
        List.getElem?_take_of_lt (by omega)]
    rw [if_pos hdepth, if_pos hdepth, if_pos h₁, if_pos h₂, hget]
  · rename_i hdepth
    obtain ⟨member, tail, hmember, htail, ⟨l₁, rfl⟩, ⟨l₂, rfl⟩⟩ := h
    have hfind : ∀ l : List Bytes, (l ++ member :: tail).reverse.find?
        (fun part => !skipped (mustParsePrefixes p.excludedIPs) part) = some member := by
      intro l
      have hnone : tail.reverse.find?
          (fun part => !skipped (mustParsePrefixes p.excludedIPs) part) = none := by
        rw [List.find?_eq_none]
        intro m hm
        simp [htail m (List.mem_reverse.1 hm)]
      rw [List.reverse_append, List.reverse_cons, List.append_assoc, List.find?_append, hnone]
      simp [hmember]
    rw [if_neg hdepth, if_neg hdepth, hfind, hfind]

theorem SameTrustedTail.ne_nil {c₁ c₂ : List Bytes}
    (h : SameTrustedTail p c₁ c₂) : c₁ ≠ [] ∧ c₂ ≠ [] := by
  unfold SameTrustedTail at h
  split at h
  · rename_i hdepth
    obtain ⟨h₁, h₂, _⟩ := h
    exact ⟨List.ne_nil_of_length_pos (by omega), List.ne_nil_of_length_pos (by omega)⟩
  · obtain ⟨member, tail, _, _, h₁, h₂⟩ := h
    exact ⟨fun h => by simp [h] at h₁, fun h => by simp [h] at h₂⟩

theorem chain_of_one_line {r : Request} (h : (fieldLines r).length = 1) :
    chain r = members (r.header.get headerXForwardedFor) := by
  obtain ⟨line, hline⟩ := List.length_eq_one_iff.1 h
  unfold fieldLines at hline
  simp [chain, fieldLines, Header.get, hline]

/-! ### Requests with a chosen chain -/

/-- A field line with the given members. -/
def lineOf : List Bytes → Bytes
  | [] => []
  | [w] => w
  | w :: ws => w ++ ch ',' :: lineOf ws

theorem split_lineOf {w : Bytes} {ws : List Bytes} (h : ∀ v ∈ w :: ws, ch ',' ∉ v) :
    split (ch ',') (lineOf (w :: ws)) = w :: ws := by
  induction ws generalizing w with
  | nil => exact split_of_not_mem (h w List.mem_cons_self)
  | cons v vs ih =>
    rw [lineOf, split_append, split_of_not_mem (h w List.mem_cons_self),
      ih (fun u hu => h u (List.mem_cons_of_mem _ hu))]
    · rfl
    · simp

/-- A request with the given `X-Forwarded-For` lines. -/
def asked (lines : List Bytes) : Request where
  remoteAddr := []
  header := ⟨[(headerXForwardedFor, lines)], by simp⟩

@[simp] theorem fieldLines_asked (lines : List Bytes) : fieldLines (asked lines) = lines := by
  have hkey : canonicalHeaderKey headerXForwardedFor = headerXForwardedFor := by decide
  simp [fieldLines, Header.values, Header.lookup, asked, hkey]

/-- How many members from the right the policy reads at least. -/
def reach (p : IPSelection) : ℕ := max p.depth 1

/-- A request whose first line starts with `first` and goes on with `x` up to the policy's reach,
followed by `k` more lines `x`. -/
def crafted (p : IPSelection) (first : Bytes) (k : ℕ) : Request :=
  asked (lineOf (first :: List.replicate (reach p - 1) (lit "x")) :: List.replicate k (lit "x"))

section crafted

variable {p : IPSelection} {first : Bytes} (hcomma : ch ',' ∉ first) (htrim : trimSpace first = first)

include hcomma htrim

theorem members_crafted : members (lineOf (first :: List.replicate (reach p - 1) (lit "x"))) =
    first :: List.replicate (reach p - 1) (lit "x") := by
  have hno : ∀ v ∈ first :: List.replicate (reach p - 1) (lit "x"), ch ',' ∉ v := by
    intro v hv
    rcases List.mem_cons.1 hv with rfl | hv
    · exact hcomma
    · rw [(List.mem_replicate.1 hv).2]
      decide
  have hx : trimSpace (lit "x") = lit "x" := by decide
  rw [members, split_lineOf hno]
  simp [htrim, hx]

theorem chain_crafted (k : ℕ) :
    chain (crafted p first k) = first :: List.replicate (reach p - 1 + k) (lit "x") := by
  have hx : members (lit "x") = [lit "x"] := by decide
  have hrest : (List.replicate k (lit "x")).flatMap members = List.replicate k (lit "x") := by
    induction k with
    | zero => rfl
    | succ k ih => simp [List.replicate_succ, hx, ih]
  rw [chain, crafted, fieldLines_asked, List.flatMap_cons, members_crafted hcomma htrim, hrest,
    List.replicate_add]
  simp

theorem selectedRequestIP_crafted (t : Trust) (k : ℕ) (hmode : p.mode = .forwarded)
    (haddr : parseAddr first = none) (hne : first ≠ []) :
    selectedRequestIP (some p) t (crafted p first k) = first := by
  have hget : (crafted p first k).header.get headerXForwardedFor =
      lineOf (first :: List.replicate (reach p - 1) (lit "x")) := by
    have hlines : (crafted p first k).header.values headerXForwardedFor = _ :=
      fieldLines_asked (lineOf (first :: List.replicate (reach p - 1) (lit "x")) ::
        List.replicate k (lit "x"))
    simp [Header.get, hlines]
  have hselect : forwardedSelection p (crafted p first k) = first := by
    rw [forwardedSelection, hget, members_crafted hcomma htrim, selectMember]
    split
    · rename_i hdepth
      have hreach : reach p = p.depth := max_eq_left hdepth
      have hlen : (List.replicate (p.depth - 1) (lit "x")).reverse.length = p.depth - 1 := by simp
      rw [hreach, if_pos (by simp; omega), List.reverse_cons,
        List.getElem?_append_right (by rw [hlen]), hlen]
      simp
    · rename_i hdepth
      have hreach : reach p - 1 = 0 := by simp only [reach]; omega
      simp [hreach, skipped, hne, haddr]
  simp [selectedRequestIP, hmode, hselect, maskSubnet, haddr]

end crafted

theorem drop_crafted {first : Bytes} {d k : ℕ} (hd : 0 < d) (h : first = lit "x" ∨ 0 < k) :
    (first :: List.replicate (d - 1 + k) (lit "x")).drop k = List.replicate d (lit "x") := by
  cases k with
  | zero =>
    obtain rfl : first = lit "x" := h.resolve_right (by omega)
    rw [← List.replicate_succ]
    simp only [List.drop_zero]
    congr 1
    omega
  | succ k =>
    rw [List.drop_succ_cons, List.drop_replicate]
    congr 1
    omega

theorem sameTrustedTail_crafted {first₁ first₂ : Bytes} {k₁ k₂ : ℕ}
    (h₁ : first₁ = lit "x" ∨ 0 < k₁) (h₂ : first₂ = lit "x" ∨ 0 < k₂) :
    SameTrustedTail p (first₁ :: List.replicate (reach p - 1 + k₁) (lit "x"))
      (first₂ :: List.replicate (reach p - 1 + k₂) (lit "x")) := by
  unfold SameTrustedTail
  split
  · rename_i hdepth
    have hreach : reach p = p.depth := max_eq_left hdepth
    rw [hreach]
    have hlen : ∀ first k, (first :: List.replicate (p.depth - 1 + k) (lit "x")).length =
        p.depth + k := by
      intro first k
      rw [List.length_cons, List.length_replicate]
      omega
    rw [hlen, hlen, Nat.add_sub_cancel_left, Nat.add_sub_cancel_left, drop_crafted hdepth h₁,
      drop_crafted hdepth h₂]
    exact ⟨Nat.le_add_right _ _, Nat.le_add_right _ _, rfl⟩
  · rename_i hdepth
    have hreach : reach p - 1 = 0 := by simp only [reach]; omega
    have hsuffix : ∀ {first k}, (first = lit "x" ∨ 0 < k) →
        [lit "x"] <:+ first :: List.replicate (reach p - 1 + k) (lit "x") := by
      intro first k h
      have hdrop := drop_crafted (d := 1) Nat.one_pos h
      rw [hreach]
      exact ⟨_, by rw [← List.take_append_drop k (first :: _), hdrop]; rfl⟩
    have hx : skipped (mustParsePrefixes p.excludedIPs) (lit "x") = false := by
      have haddr : parseAddr (lit "x") = none := by decide
      simp [skipped, haddr]
      decide
    exact ⟨lit "x", [], hx, by simp, hsuffix h₁, hsuffix h₂⟩

/-! ### Selection and the trusted tail -/

/-- The two requests are attributed to the same client. -/
def SameIdentity (p : IPSelection) (t₁ t₂ : Trust) (r₁ r₂ : Request) : Prop :=
  selectedRequestIP (some p) t₁ r₁ = selectedRequestIP (some p) t₂ r₂ ∧
    (∀ cidrs, allowIPsHandler cidrs (some p) t₁ r₁ = allowIPsHandler cidrs (some p) t₂ r₂) ∧
    rateLimitRequestKey .clientIP (some p) t₁ r₁ = rateLimitRequestKey .clientIP (some p) t₂ r₂

theorem sameIdentity_iff {t₁ t₂ : Trust} {r₁ r₂ : Request} : SameIdentity p t₁ t₂ r₁ r₂ ↔
      selectedRequestIP (some p) t₁ r₁ = selectedRequestIP (some p) t₂ r₂ := by
  constructor
  · exact fun h => h.1
  · intro h
    exact ⟨h, fun cidrs => by simp only [allowIPsHandler, h], h⟩

/-- Two requests with the given numbers of field lines are attributed to the same client whenever
their chains agree on the trusted tail. -/
def TailDecides (p : IPSelection) (t₁ t₂ : Trust) (m n : ℕ) : Prop :=
  ∀ r₁ r₂, (fieldLines r₁).length = m → (fieldLines r₂).length = n →
    SameTrustedTail p (chain r₁) (chain r₂) → SameIdentity p t₁ t₂ r₁ r₂

theorem tailDecides_of_one_line (hmode : p.mode = .forwarded) (t₁ t₂ : Trust) :
    TailDecides p t₁ t₂ 1 1 := by
  intro r₁ r₂ h₁ h₂ htail
  rw [chain_of_one_line h₁, chain_of_one_line h₂] at htail
  have hselect : forwardedSelection p r₁ = forwardedSelection p r₂ := selectMember_congr htail
  rw [sameIdentity_iff]
  simp only [selectedRequestIP, hmode, hselect]

/-- A client that reaches two lines chooses the first one. -/
theorem not_tailDecides (hmode : p.mode = .forwarded) (t₁ t₂ : Trust)
    (first₁ first₂ : Bytes) {k₁ k₂ : ℕ} (hne : first₁ ≠ first₂)
    (hfirst : ∀ f ∈ [first₁, first₂], f = lit "x" ∨ f = lit "b")
    (h₁ : first₁ = lit "x" ∨ 0 < k₁) (h₂ : first₂ = lit "x" ∨ 0 < k₂) :
    ¬ TailDecides p t₁ t₂ (k₁ + 1) (k₂ + 1) := by
  intro h
  have hplain : ∀ f ∈ [first₁, first₂],
      ch ',' ∉ f ∧ trimSpace f = f ∧ parseAddr f = none ∧ f ≠ [] := by
    intro f hf
    rcases hfirst f hf with rfl | rfl <;> decide
  obtain ⟨hc₁, ht₁, ha₁, hn₁⟩ := hplain first₁ (by simp)
  obtain ⟨hc₂, ht₂, ha₂, hn₂⟩ := hplain first₂ (by simp)
  have hsame := (h (crafted p first₁ k₁) (crafted p first₂ k₂) (by simp [crafted])
    (by simp [crafted]) (by
      rw [chain_crafted hc₁ ht₁, chain_crafted hc₂ ht₂]
      exact sameTrustedTail_crafted h₁ h₂)).1
  rw [selectedRequestIP_crafted hc₁ ht₁ t₁ k₁ hmode ha₁ hn₁,
    selectedRequestIP_crafted hc₂ ht₂ t₂ k₂ hmode ha₂ hn₂] at hsame
  exact hne hsame

/-- **Forwarded selection.** Under a forwarded policy of any depth and exclusions, agreement of the
chains on the trusted tail decides the client of every two requests with `m` and `n` field lines if
and only if both have one line, or one of them has none. -/
theorem forwarded_selection_iff (p : IPSelection) (hmode : p.mode = .forwarded) (t₁ t₂ : Trust)
    (m n : ℕ) : TailDecides p t₁ t₂ m n ↔ m = 0 ∨ n = 0 ∨ (m = 1 ∧ n = 1) := by
  constructor
  · intro h
    by_contra hlines
    rcases Nat.lt_or_ge 1 m with hm | hm
    · obtain ⟨k₁, rfl⟩ : ∃ k, m = k + 1 := ⟨m - 1, by omega⟩
      obtain ⟨k₂, rfl⟩ : ∃ k, n = k + 1 := ⟨n - 1, by omega⟩
      exact not_tailDecides hmode t₁ t₂ (lit "b") (lit "x") (by decide)
        (by simp) (Or.inr (by omega)) (Or.inl rfl) h
    · obtain ⟨k₁, rfl⟩ : ∃ k, m = k + 1 := ⟨m - 1, by omega⟩
      obtain ⟨k₂, rfl⟩ : ∃ k, n = k + 1 := ⟨n - 1, by omega⟩
      exact not_tailDecides hmode t₁ t₂ (lit "x") (lit "b") (by decide)
        (by simp) (Or.inl rfl) (Or.inr (by omega)) h
  · rintro (rfl | rfl | ⟨rfl, rfl⟩)
    · intro r₁ r₂ h₁ _ htail
      exact absurd (by simp [chain, List.length_eq_zero_iff.1 h₁]) htail.ne_nil.1
    · intro r₁ r₂ _ h₂ htail
      exact absurd (by simp [chain, List.length_eq_zero_iff.1 h₂]) htail.ne_nil.2
    · exact tailDecides_of_one_line hmode t₁ t₂

theorem forwarded_selection_iff_one_line :
    TailDecides { mode := .forwarded, depth := 2 } {} {} 1 1 :=
  (forwarded_selection_iff { mode := .forwarded, depth := 2 } rfl {} {} 1 1).2 (by simp)

/-- Behind a proxy that adds its own field line, the first line is the client's: two requests with
the same last member are attributed to two clients. -/
theorem second_line_ignored :
    SameTrustedTail { mode := .forwarded, depth := 1 }
        (chain (asked [lit "198.51.100.1", lit "203.0.113.9"]))
        (chain (asked [lit "198.51.100.2", lit "203.0.113.9"])) ∧
      selectedRequestIP (some { mode := .forwarded, depth := 1 }) {}
          (asked [lit "198.51.100.1", lit "203.0.113.9"]) = lit "198.51.100.1" ∧
      selectedRequestIP (some { mode := .forwarded, depth := 1 }) {}
          (asked [lit "198.51.100.2", lit "203.0.113.9"]) = lit "198.51.100.2" := by
  refine ⟨?_, by decide +kernel, by decide +kernel⟩
  rw [SameTrustedTail, if_pos Nat.one_pos]
  decide +kernel

end Statute.Client
