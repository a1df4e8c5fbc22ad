import Statute.Base.Bytes
import Mathlib.Data.List.Sort

/-!
# IP addresses and prefixes

The part of Go's `net/netip` that address-matching code uses: addresses of both families with an
optional zone, prefixes, their text forms, and membership.  A value of `Addr` or `Prefix` carries
the range its number has to stay in.

The results are about membership: prefixes form a laminar family (`contains_of_nested`,
`nested_of_contains`), so the meet of two prefixes is the smaller one or empty.
-/

namespace Statute.Base

/-! ### Values -/

/-- The number of bits of an address of a family. -/
def bitLen (is4 : Bool) : ℕ := if is4 then 32 else 128

/-- `netip.Addr`: a family, the address as a number, and the IPv6 zone. -/
structure Addr where
  is4 : Bool
  val : ℕ
  zone : Bytes
  val_lt : val < 2 ^ bitLen is4
deriving DecidableEq

/-- `netip.Prefix`: an address without a zone and a number of leading bits. -/
structure Prefix where
  is4 : Bool
  val : ℕ
  bits : ℕ
  val_lt : val < 2 ^ bitLen is4
  bits_le : bits ≤ bitLen is4
deriving DecidableEq

/-- The prefix's address. -/
def Prefix.addr (p : Prefix) : Addr := ⟨p.is4, p.val, [], p.val_lt⟩

/-- `Addr.Is4In6`: an IPv6 address under `::ffff:0:0/96`. -/
def Addr.is4In6 (a : Addr) : Bool := !a.is4 && a.val / 2 ^ 32 == 0xffff

/-- `Addr.Unmap`: drop the IPv4-mapped prefix, and the zone with it. -/
def Addr.unmap (a : Addr) : Addr :=
  if a.is4In6 then
    ⟨true, a.val % 2 ^ 32, [], by simpa [bitLen] using Nat.mod_lt a.val (by norm_num)⟩
  else a

def Addr.withoutZone (a : Addr) : Addr := { a with zone := [] }

/-- The bits of an address that a prefix of `bits` bits compares. -/
def lead (is4 : Bool) (bits val : ℕ) : ℕ := val / 2 ^ (bitLen is4 - bits)

/-- `Prefix.Contains`: no zone, the same family, the same leading bits. -/
def Prefix.contains (p : Prefix) (a : Addr) : Bool :=
  a.zone == [] && p.is4 == a.is4 && lead p.is4 p.bits a.val == lead p.is4 p.bits p.val

/-- `netip.PrefixFrom(ip, ip.BitLen())`: the prefix of one address. -/
def Prefix.single (a : Addr) : Prefix := ⟨a.is4, a.val, bitLen a.is4, a.val_lt, le_refl _⟩

/-- `Prefix.Masked`: clear the host bits. -/
def Prefix.masked (p : Prefix) : Prefix :=
  { p with
    val := lead p.is4 p.bits p.val * 2 ^ (bitLen p.is4 - p.bits)
    val_lt := lt_of_le_of_lt (Nat.div_mul_le_self _ _) p.val_lt }

/-! ### Text -/

/-- Value of a hexadecimal digit. -/
def hexDigit (c : UInt8) : Option ℕ :=
  if 48 ≤ c ∧ c ≤ 57 then some (c.toNat - 48)
  else if 97 ≤ c ∧ c ≤ 102 then some (c.toNat - 87)
  else if 65 ≤ c ∧ c ≤ 70 then some (c.toNat - 55)
  else none

/-- One decimal octet: one to three digits, no leading zero, at most 255. -/
def parseOctet (s : Bytes) : Option ℕ :=
  if s = [] ∨ 3 < s.length ∨ (1 < s.length ∧ s.head? = some 48) then none
  else match digitsValue decDigit 10 0 s with
    | some v => if v ≤ 255 then some v else none
    | none => none

/-- `parseIPv4`: exactly four octets separated by dots. -/
def parseIPv4 (s : Bytes) : Option ℕ :=
  match (split (ch '.') s).map parseOctet with
  | [some a, some b, some c, some d] => some (((a * 256 + b) * 256 + c) * 256 + d)
  | _ => none

/-- The field loop of `parseIPv6`: `n` fields may still be read, `gs` are those read so far and
`ell` is where `::` stood. -/
def parseIPv6Fields : ℕ → Bytes → List ℕ → Option ℕ → Option (List ℕ × Option ℕ × Bytes)
  | 0, s, gs, ell => some (gs, ell, s)
  | n + 1, s, gs, ell =>
    let digits := s.takeWhile (fun c => (hexDigit c).isSome)
    let rest := s.dropWhile (fun c => (hexDigit c).isSome)
    if digits = [] ∨ 4 < digits.length then none
    else match digitsValue hexDigit 16 0 digits, rest with
      | none, _ => none
      | some v, [] => some (gs ++ [v], ell, [])
      | some v, c :: rest' =>
        if c = ch '.' then
          -- an embedded IPv4 address takes the place of the last two fields
          if (ell = none ∧ gs.length ≠ 6) ∨ 8 < gs.length + 2 then none
          else match parseIPv4 s with
            | some q => some (gs ++ [q / 65536, q % 65536], ell, [])
            | none => none
        else if c = ch ':' then
          match rest' with
          | [] => none
          | d :: rest'' =>
            if d = ch ':' then
              if ell.isSome then none
              else if rest'' = [] then some (gs ++ [v], some (gs.length + 1), [])
              else parseIPv6Fields n rest'' (gs ++ [v]) (some (gs.length + 1))
            else parseIPv6Fields n (d :: rest'') (gs ++ [v]) ell
        else none

/-- The eight fields of an address, with `::` expanded. -/
def expandFields (gs : List ℕ) (ell : Option ℕ) : Option (List ℕ) :=
  match ell with
  | none => if gs.length = 8 then some gs else none
  | some k =>
    if gs.length < 8 then some (gs.take k ++ List.replicate (8 - gs.length) 0 ++ gs.drop k)
    else none

/-- `parseIPv6` without its zone: a leading `::`, then the field loop. -/
def parseIPv6 (s : Bytes) : Option ℕ :=
  let fields :=
    if hasPrefix s (lit "::") then
      if s.length = 2 then some ([], some 0, []) else parseIPv6Fields 8 (s.drop 2) [] (some 0)
    else parseIPv6Fields 8 s [] none
  match fields with
  | some (gs, ell, []) => (expandFields gs ell).map (fun fs => fs.foldl (fun acc g => acc * 65536 + g) 0)
  | _ => none

/-- An address of a family when its number is in range. -/
def mkAddr (is4 : Bool) (val : ℕ) (zone : Bytes) : Option Addr :=
  if h : val < 2 ^ bitLen is4 then some ⟨is4, val, zone, h⟩ else none

/-- `netip.ParseAddr`: the first of `.`, `:` and `%` decides the family. -/
def parseAddr (s : Bytes) : Option Addr :=
  match s.find? (fun c => c = ch '.' ∨ c = ch ':' ∨ c = ch '%') with
  | none => none
  | some c =>
    if c = ch '.' then (parseIPv4 s).bind (fun v => mkAddr true v [])
    else if c = ch ':' then
      match splitAtByte (ch '%') s with
      | none => (parseIPv6 s).bind (fun v => mkAddr false v [])
      | some (before, zone) =>
        if zone = [] then none else (parseIPv6 before).bind (fun v => mkAddr false v zone)
    else none

/-- The prefix length of a CIDR text: digits without a sign or leading zero. -/
def parseBits (s : Bytes) : Option ℕ :=
  if s = [] ∨ (1 < s.length ∧ s.head? = some 48) then none else digitsValue decDigit 10 0 s

/-- `netip.ParsePrefix`. -/
def parsePrefix (s : Bytes) : Option Prefix :=
  match splitAtByte (ch '/') s.reverse with
  | none => none
  | some (bitsRev, addrRev) =>
    match parseAddr addrRev.reverse, parseBits bitsRev.reverse with
    | some a, some bits =>
      if h : a.zone = [] ∧ bits ≤ bitLen a.is4 then some ⟨a.is4, a.val, bits, a.val_lt, h.2⟩
      else none
    | _, _ => none

/-- Hexadecimal text of a number. -/
def hexText (n : ℕ) : Bytes := (Nat.toDigits 16 n).map ch

/-- Dotted text of an IPv4 number. -/
def text4 (v : ℕ) : Bytes :=
  decText (v / 2 ^ 24 % 256) ++ lit "." ++ decText (v / 2 ^ 16 % 256) ++ lit "." ++
    decText (v / 2 ^ 8 % 256) ++ lit "." ++ decText (v % 256)

/-- The sixteen-bit fields of an IPv6 number, most significant first. -/
def fields6 (v : ℕ) : List ℕ := (List.range 8).map (fun i => v / 2 ^ (16 * (7 - i)) % 65536)

/-- The first longest run of at least two zero fields, as start and length. -/
def zeroRun (fs : List ℕ) : ℕ × ℕ :=
  (List.range 8).foldl
    (fun best i =>
      let l := ((fs.drop i).takeWhile (· == 0)).length
      if 2 ≤ l ∧ best.2 < l then (i, l) else best)
    (0, 0)

def joinFields (fs : List ℕ) : Bytes := (lit ":").intercalate (fs.map hexText)

/-- `Addr.String` of a zone-free address. -/
def addrText (is4 : Bool) (v : ℕ) : Bytes :=
  if is4 then text4 v
  else if v / 2 ^ 32 = 0xffff then lit "::ffff:" ++ text4 (v % 2 ^ 32)
  else
    let fs := fields6 v
    let run := zeroRun fs
    if run.2 = 0 then joinFields fs
    else joinFields (fs.take run.1) ++ lit "::" ++ joinFields (fs.drop (run.1 + run.2))

/-- `Prefix.String`. -/
def Prefix.text (p : Prefix) : Bytes := addrText p.is4 p.val ++ lit "/" ++ decText p.bits

/-! ### Membership -/

theorem lead_lead {is4 : Bool} {l r v : ℕ} (hlr : l ≤ r) (hr : r ≤ bitLen is4) :
    lead is4 r v / 2 ^ (r - l) = lead is4 l v := by
  unfold lead
  rw [Nat.div_div_eq_div_mul, ← pow_add]
  congr 2
  omega

theorem contains_iff (p : Prefix) (a : Addr) :
    p.contains a = true ↔
      a.zone = [] ∧ p.is4 = a.is4 ∧ lead p.is4 p.bits a.val = lead p.is4 p.bits p.val := by
  simp [Prefix.contains, and_assoc]

/-- A prefix that contains the address of a longer one contains every member of it. -/
theorem contains_of_nested {l r : Prefix} {a : Addr} (hbits : l.bits ≤ r.bits)
    (hl : l.contains r.addr = true) (ha : r.contains a = true) : l.contains a = true := by
  rw [contains_iff] at hl ha ⊢
  obtain ⟨_, hfam, hlead⟩ := hl
  simp only [Prefix.addr] at hfam hlead
  obtain ⟨hz, hfam', hlead'⟩ := ha
  refine ⟨hz, hfam.trans hfam', ?_⟩
  have hr : r.bits ≤ bitLen l.is4 := hfam ▸ r.bits_le
  rw [← hlead, ← lead_lead hbits hr, ← lead_lead (v := r.val) hbits hr, hfam, hlead']

/-- Two prefixes with a common member are nested. -/
theorem nested_of_contains {l r : Prefix} {a : Addr} (hbits : l.bits ≤ r.bits)
    (hl : l.contains a = true) (hr : r.contains a = true) : l.contains r.addr = true := by
  rw [contains_iff] at hl hr ⊢
  obtain ⟨_, hfam, hlead⟩ := hl
  obtain ⟨_, hfam', hlead'⟩ := hr
  have hsame : l.is4 = r.is4 := hfam.trans hfam'.symm
  refine ⟨rfl, hsame, ?_⟩
  have hrb : r.bits ≤ bitLen l.is4 := hsame ▸ r.bits_le
  show lead l.is4 l.bits r.val = lead l.is4 l.bits l.val
  rw [← hlead, ← lead_lead hbits hrb, ← lead_lead (v := a.val) hbits hrb, hsame, hlead']

theorem lead_masked (is4 : Bool) (bits v : ℕ) :
    lead is4 bits (lead is4 bits v * 2 ^ (bitLen is4 - bits)) = lead is4 bits v := by
  unfold lead
  exact Nat.mul_div_cancel _ (Nat.pow_pos (by norm_num))

/-- Masking keeps the members. -/
@[simp] theorem masked_contains (p : Prefix) (a : Addr) : p.masked.contains a = p.contains a := by
  simp [Prefix.contains, Prefix.masked, lead_masked]

end Statute.Base
