import Statute.Base.Netip

/-!
# Host and port texts

The splitters of `net` and `net/netip` that address-reading code starts from, and what they say of
a text that names an address: an IPv4 text holds no colon, an IPv6 text at least two
(`not_mem_colon_of_is4`, `two_colons_of_parseAddr`), so a text with one colon is an IPv4 address
with its port.
-/

namespace Statute.Base

/-- The text before and after the last `c`: `strings.CutLast` for a one-byte separator. -/
def cutLast (s : Bytes) (c : UInt8) : Option (Bytes × Bytes) :=
  (splitAtByte c s.reverse).map (fun r => (r.2.reverse, r.1.reverse))

/-- `Addr.String`. -/
def Addr.text (a : Addr) : Bytes :=
  addrText a.is4 a.val ++ (if a.zone = [] then [] else ch '%' :: a.zone)

/-- `net.SplitHostPort`. -/
def splitHostPort (s : Bytes) : Option (Bytes × Bytes) :=
  match cutLast s (ch ':') with
  | none => none
  | some (before, port) =>
    if s.head? = some (ch '[') then
      match splitAtByte (ch ']') s with
      | none => none
      | some (opened, rest) =>
        -- the first bracket closes right before the last colon
        if rest ≠ ch ':' :: port then none
        else if ch '[' ∈ opened.tail ++ rest ∨ ch ']' ∈ rest then none
        else some (opened.tail, port)
    else if ch ':' ∈ before ∨ ch '[' ∈ s ∨ ch ']' ∈ s then none
    else some (before, port)

/-- A port number: decimal digits below 2^16. -/
def parsePort (s : Bytes) : Option ℕ :=
  match parseDecimal s with
  | some n => if n < 65536 then some n else none
  | none => none

/-- `netip.ParseAddrPort`. -/
def parseAddrPort (s : Bytes) : Option (Addr × ℕ) :=
  match cutLast s (ch ':') with
  | none => none
  | some (ip, port) =>
    if ip = [] ∨ port = [] then none
    else
      let bracketed := ip.head? = some (ch '[')
      if bracketed ∧ (ip.length < 2 ∨ ip.getLast? ≠ some (ch ']')) then none
      else
        match parsePort port, parseAddr (if bracketed then ip.tail.dropLast else ip) with
        | some n, some a => if bracketed ↔ a.is4 = true then none else some (a, n)
        | _, _ => none

/-! ### What an address text looks like -/

variable {c : UInt8} {s : Bytes}

theorem splitAtByte_some {before after : Bytes} (h : splitAtByte c s = some (before, after)) :
    s = before ++ c :: after ∧ c ∉ before := by
  induction s generalizing before with
  | nil => simp [splitAtByte] at h
  | cons b bs ih =>
    simp only [splitAtByte] at h
    split at h
    · rename_i hb
      obtain ⟨rfl, rfl⟩ := Prod.ext_iff.1 (Option.some.inj h)
      simp [hb]
    · rename_i hb
      obtain ⟨r, hr, hpair⟩ := Option.map_eq_some_iff.1 h
      obtain ⟨rfl, rfl⟩ := Prod.ext_iff.1 hpair
      obtain ⟨hs, hnot⟩ := ih hr
      exact ⟨by simp [← hs], by simpa [Ne.symm hb] using hnot⟩

theorem splitAtByte_append {before : Bytes} (h : c ∉ before) (after : Bytes) :
    splitAtByte c (before ++ c :: after) = some (before, after) := by
  induction before with
  | nil => simp [splitAtByte]
  | cons b bs ih =>
    rw [List.mem_cons, not_or] at h
    simp [splitAtByte, Ne.symm h.1, ih h.2]

theorem splitAtByte_none (h : c ∉ s) : splitAtByte c s = none := by
  cases hs : splitAtByte c s with
  | none => rfl
  | some r => exact absurd (by simp [(splitAtByte_some hs).1]) h

theorem cutLast_some {before after : Bytes} (h : cutLast s c = some (before, after)) :
    s = before ++ c :: after := by
  obtain ⟨r, hr, hpair⟩ := Option.map_eq_some_iff.1 h
  obtain ⟨rfl, rfl⟩ := Prod.ext_iff.1 hpair
  rw [← List.reverse_reverse s, (splitAtByte_some hr).1]
  simp

theorem mem_of_cutLast {before after : Bytes} (h : cutLast s c = some (before, after)) :
    ∀ b ∈ before, b ∈ s := by
  rw [cutLast_some h]
  exact fun b hb => List.mem_append_left _ hb

variable {v : ℕ}

theorem isSome_of_digitsValue {digit : UInt8 → Option ℕ} {base acc : ℕ}
    (h : digitsValue digit base acc s = some v) : ∀ c ∈ s, (digit c).isSome := by
  induction s generalizing acc with
  | nil => simp
  | cons b bs ih =>
    simp only [digitsValue] at h
    split at h
    · cases h
    · rename_i d hd
      intro c hc
      rcases List.mem_cons.1 hc with rfl | hc
      · simp [hd]
      · exact ih h c hc

theorem mem_split (sep : UInt8) (hc : c ∈ s) : c = sep ∨ ∃ w ∈ split sep s, c ∈ w := by
  induction s with
  | nil => cases hc
  | cons b bs ih =>
    simp only [split]
    rcases List.mem_cons.1 hc with rfl | hc
    · by_cases hb : c = sep
      · exact Or.inl hb
      · rw [if_neg hb]
        right
        split
        · exact ⟨[c], by simp⟩
        · exact ⟨_, List.mem_cons_self, List.mem_cons_self⟩
    · rcases ih hc with h | ⟨w, hw, hcw⟩
      · exact Or.inl h
      · right
        by_cases hb : b = sep
        · exact ⟨w, by simp [hb, hw], hcw⟩
        · rw [if_neg hb]
          split
          · rename_i hnil
            simp [hnil] at hw
          · rename_i w' ws hcons
            rw [hcons] at hw
            rcases List.mem_cons.1 hw with rfl | hw
            · exact ⟨b :: w, List.mem_cons_self, List.mem_cons_of_mem _ hcw⟩
            · exact ⟨w, List.mem_cons_of_mem _ hw, hcw⟩

theorem digits_of_parseOctet (h : parseOctet s = some v) : ∀ c ∈ s, (decDigit c).isSome := by
  simp only [parseOctet] at h
  split at h
  · cases h
  · split at h
    · rename_i hd
      exact isSome_of_digitsValue hd
    · cases h

theorem bytes_of_parseIPv4 (h : parseIPv4 s = some v) :
    ∀ c ∈ s, c = ch '.' ∨ (decDigit c).isSome := by
  intro c hc
  rcases mem_split (ch '.') hc with h' | ⟨w, hw, hcw⟩
  · exact Or.inl h'
  · right
    have hpiece : ∃ v, parseOctet w = some v := by
      have hmem : parseOctet w ∈ (split (ch '.') s).map parseOctet := List.mem_map_of_mem hw
      unfold parseIPv4 at h
      split at h
      · rename_i a b c d hparts
        rw [hparts] at hmem
        simp only [List.mem_cons, List.not_mem_nil, or_false] at hmem
        rcases hmem with h | h | h | h <;> exact ⟨_, h⟩
      · cases h
    obtain ⟨v, hv⟩ := hpiece
    exact digits_of_parseOctet hv c hcw

theorem parseIPv4_ne_nil (h : parseIPv4 s = some v) : s ≠ [] := by
  rintro rfl
  simp [parseIPv4, split] at h

/-- Each field the loop reads without `::` costs a colon, but for the last one or two. -/
theorem colons_of_parseIPv6Fields {n : ℕ} {rest : Bytes} {gs gs' : List ℕ} {ell ell' : Option ℕ}
    (h : parseIPv6Fields n s gs ell = some (gs', ell', rest)) :
    (ell' = ell ∧ gs'.length ≤ gs.length + s.count (ch ':') + 2) ∨ 2 ≤ s.count (ch ':') := by
  induction n generalizing s gs ell with
  | zero =>
    simp only [parseIPv6Fields, Option.some.injEq, Prod.mk.injEq] at h
    obtain ⟨rfl, rfl, _⟩ := h
    exact Or.inl ⟨rfl, by omega⟩
  | succ n ih =>
    have hcount : (s.dropWhile (fun c => (hexDigit c).isSome)).count (ch ':') ≤ s.count (ch ':') :=
      (List.dropWhile_sublist _).count_le _
    simp only [parseIPv6Fields] at h
    split at h
    · cases h
    split at h
    · cases h
    · simp only [Option.some.injEq, Prod.mk.injEq] at h
      obtain ⟨rfl, rfl, _⟩ := h
      refine Or.inl ⟨rfl, ?_⟩
      rw [List.length_append, List.length_singleton]
      omega
    · rename_i v c rest' _ hrest
      rw [hrest] at hcount
      split at h
      · split at h
        · cases h
        · split at h
          · simp only [Option.some.injEq, Prod.mk.injEq] at h
            obtain ⟨rfl, rfl, _⟩ := h
            refine Or.inl ⟨rfl, ?_⟩
            simp only [List.length_append, List.length_cons, List.length_nil]
            omega
          · cases h
      · split at h
        · rename_i hc
          subst hc
          split at h
          · cases h
          · rename_i d rest''
            split at h
            · rename_i hd
              subst hd
              right
              simp only [List.count_cons_self] at hcount
              omega
            · rw [List.count_cons_self] at hcount
              rcases ih h with ⟨hell, hlen⟩ | htwo
              · refine Or.inl ⟨hell, ?_⟩
                rw [List.length_append, List.length_singleton] at hlen
                omega
              · exact Or.inr (by omega)
        · cases h

/-- An IPv6 text holds at least two colons. -/
theorem two_colons_of_parseIPv6 (h : parseIPv6 s = some v) : 2 ≤ s.count (ch ':') := by
  simp only [parseIPv6] at h
  split at h
  · rename_i gs ell hfields
    split at hfields
    · rename_i hcolons
      obtain ⟨t, rfl⟩ := (hasPrefix_iff _ _).1 hcolons
      rw [List.count_append]
      exact Nat.le_add_right_of_le (by decide)
    · rcases colons_of_parseIPv6Fields hfields with ⟨rfl, hlen⟩ | htwo
      · obtain ⟨fs, hfs, _⟩ := Option.map_eq_some_iff.1 h
        simp only [expandFields] at hfs
        split at hfs
        · rename_i height
          rw [List.length_nil] at hlen
          omega
        · cases hfs
      · exact htwo
  · cases h

/-- An IPv6 text starts with a colon or a hexadecimal digit. -/
theorem head_of_parseIPv6 (h : parseIPv6 s = some v) :
    ∃ c t, s = c :: t ∧ (c = ch ':' ∨ (hexDigit c).isSome) := by
  simp only [parseIPv6] at h
  split at h
  · rename_i gs ell hfields
    split at hfields
    · rename_i hcolons
      obtain ⟨t, rfl⟩ := (hasPrefix_iff _ _).1 hcolons
      exact ⟨ch ':', ch ':' :: t, rfl, Or.inl rfl⟩
    · cases s with
      | nil => simp [parseIPv6Fields] at hfields
      | cons c t =>
        refine ⟨c, t, rfl, Or.inr ?_⟩
        by_contra hc
        simp [parseIPv6Fields, hc] at hfields
  · cases h

/-- What `parseAddr` accepts: dotted digits, or colons and an optional zone. -/
theorem parseAddr_shape {a : Addr} (h : parseAddr s = some a) :
    (a.is4 = true ∧ ∃ v, parseIPv4 s = some v) ∨
      (a.is4 = false ∧ ∃ before v, before <+: s ∧ parseIPv6 before = some v) := by
  have hmk : ∀ {is4 v zone}, mkAddr is4 v zone = some a → a.is4 = is4 := by
    intro is4 v zone hm
    obtain ⟨_, ha⟩ := Option.dite_none_right_eq_some.1 hm
    rw [← Option.some.inj ha]
  simp only [parseAddr] at h
  split at h
  · cases h
  split at h
  · obtain ⟨v, hv, hm⟩ := Option.bind_eq_some_iff.1 h
    exact Or.inl ⟨hmk hm, v, hv⟩
  split at h
  · split at h
    · obtain ⟨v, hv, hm⟩ := Option.bind_eq_some_iff.1 h
      exact Or.inr ⟨hmk hm, s, v, List.prefix_refl s, hv⟩
    · rename_i before zone hsplit
      obtain ⟨_, h⟩ := Option.ite_none_left_eq_some.1 h
      obtain ⟨v, hv, hm⟩ := Option.bind_eq_some_iff.1 h
      refine Or.inr ⟨hmk hm, before, v, ?_, hv⟩
      rw [(splitAtByte_some hsplit).1]
      exact List.prefix_append _ _
  · cases h

/-- An IPv4 text holds no colon. -/
theorem not_mem_colon_of_is4 {a : Addr} (h : parseAddr s = some a) (h4 : a.is4 = true) :
    ch ':' ∉ s := by
  rcases parseAddr_shape h with ⟨_, v, hv⟩ | ⟨h6, _⟩
  · intro hc
    rcases bytes_of_parseIPv4 hv _ hc with h | h
    · cases h
    · cases h
  · rw [h4] at h6
    cases h6

/-- A text that names an IPv6 address holds at least two colons. -/
theorem two_colons_of_parseAddr {a : Addr} (h : parseAddr s = some a) (h6 : a.is4 = false) :
    2 ≤ s.count (ch ':') := by
  rcases parseAddr_shape h with ⟨h4, _⟩ | ⟨_, before, v, hpre, hv⟩
  · rw [h6] at h4
    cases h4
  · exact (two_colons_of_parseIPv6 hv).trans (hpre.sublist.count_le _)

/-- A text that names an address is not empty and does not start with a bracket. -/
theorem head_of_parseAddr {a : Addr} (h : parseAddr s = some a) :
    ∃ c t, s = c :: t ∧ c ≠ ch '[' := by
  rcases parseAddr_shape h with ⟨_, v, hv⟩ | ⟨_, before, v, ⟨t, rfl⟩, hv⟩
  · obtain ⟨c, t, rfl⟩ := List.exists_cons_of_ne_nil (parseIPv4_ne_nil hv)
    refine ⟨c, t, rfl, ?_⟩
    rintro rfl
    rcases bytes_of_parseIPv4 hv _ List.mem_cons_self with h | h
    · cases h
    · cases h
  · obtain ⟨c, t', rfl, hc⟩ := head_of_parseIPv6 hv
    refine ⟨c, t' ++ t, rfl, ?_⟩
    rintro rfl
    rcases hc with h | h
    · cases h
    · cases h

end Statute.Base
