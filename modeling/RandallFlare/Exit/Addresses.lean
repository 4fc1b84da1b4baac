import RandallFlare.Exit.Rules

/-!
# The addresses an exit may dial

A translation of `public_egress_ip`.  An IPv6 address may carry an IPv4 address that a router on its
way takes out of it; an exit must look at the address inside as well.  The rule looks into mapped
and compatible addresses and refuses the other forms as a whole, but for one: an IPv4-translated
address `::ffff:0:a.b.c.d` is none of the prefixes it knows.

* `publicEgressIp`: the rule;
* `embedded`: the IPv4 addresses inside an IPv6 address, in each of the standard forms;
* `embedded_public_iff`: an address that passes the rule hides no other non-public address than an
  IPv4-translated one.
-/

namespace RandallFlare

namespace Exit

/-- The segment `i` of eight. -/
def segment (bits : BitVec 128) (i : ℕ) : BitVec 16 := bits.extractLsb' (112 - 16 * i) 16

/-- The address of two segments. -/
def segmentPair (bits : BitVec 128) (i : ℕ) : BitVec 32 := segment bits i ++ segment bits (i + 1)

/-- The segments from `i` up to `j` are zero. -/
def zeroSegments (bits : BitVec 128) (i j : ℕ) : Bool :=
  (List.range' i (j - i)).all (segment bits · = 0)

/-- `::ffff:a.b.c.d`. -/
def isMapped (bits : BitVec 128) : Bool := zeroSegments bits 0 5 && segment bits 5 = 0xffff

/-- `::a.b.c.d`. -/
def isCompatible (bits : BitVec 128) : Bool := zeroSegments bits 0 6

def publicV4 (bits : BitVec 32) : Bool :=
  let a := bits.extractLsb' 24 8
  let b := bits.extractLsb' 16 8
  let c := bits.extractLsb' 8 8
  !(a = 0 || a = 10 || a = 127 || (a = 100 && b &&& 0xc0 = 64) || (a = 169 && b = 254) ||
    (a = 172 && 16 ≤ b && b ≤ 31) || (a = 192 && b = 168) || (a = 192 && b = 0) ||
    (a = 192 && b = 88 && c = 99) || (a = 192 && b = 175 && c = 48) ||
    (a = 198 && (b = 18 || b = 19)) || (a = 198 && b = 51 && c = 100) ||
    (a = 203 && b = 0 && c = 113) || 224 ≤ a)

def publicV6 (bits : BitVec 128) : Bool :=
  if isMapped bits then publicV4 (segmentPair bits 6)
  else if isCompatible bits then publicV4 (segmentPair bits 6)
  else
    let s := segment bits
    bits ≠ 0 && bits ≠ 1 && s 0 &&& 0xff00 ≠ 0xff00 &&
      !(s 0 = 0x64 && s 1 = 0xff9b && (s 2 = 1 || zeroSegments bits 2 6)) &&
      !(s 0 = 0x100 && zeroSegments bits 1 4) &&
      !(s 0 = 0x2001 && s 1 < 0x200) && s 0 ≠ 0x2002 &&
      s 0 &&& 0xfe00 ≠ 0xfc00 && s 0 &&& 0xffc0 ≠ 0xfe80 && s 0 &&& 0xffc0 ≠ 0xfec0 &&
      !(s 0 = 0x2001 && s 1 = 0xdb8) && s 0 &&& 0xfff0 ≠ 0x3ff0

def publicEgressIp : IpAddr → Bool
  | .v4 bits => publicV4 bits
  | .v6 bits => publicV6 bits

/-! ### Addresses inside addresses -/

/-- The IPv4-translated form `::ffff:0:a.b.c.d`. -/
def isTranslated (bits : BitVec 128) : Bool :=
  zeroSegments bits 0 4 && segment bits 4 = 0xffff && segment bits 5 = 0

/-- 6to4, `2002::/16`. -/
def isSixToFour (bits : BitVec 128) : Bool := segment bits 0 = 0x2002

/-- Teredo, `2001::/32`. -/
def isTeredo (bits : BitVec 128) : Bool := segment bits 0 = 0x2001 && segment bits 1 = 0

/-- NAT64 with the well-known prefix `64:ff9b::/96`. -/
def isNat64 (bits : BitVec 128) : Bool :=
  segment bits 0 = 0x64 && segment bits 1 = 0xff9b && zeroSegments bits 2 6

/-- NAT64 with a prefix of a site, `64:ff9b:1::/48`. -/
def isLocalNat64 (bits : BitVec 128) : Bool :=
  segment bits 0 = 0x64 && segment bits 1 = 0xff9b && segment bits 2 = 1

/-- The IPv4 addresses an IPv6 address carries: the last 32 bits, those after the prefix of 6to4,
the server and the inverted client of Teredo, and behind a prefix of a site the last 32 bits or
those around the byte that is kept free. -/
def embedded (bits : BitVec 128) : List (BitVec 32) :=
  (if isMapped bits || isCompatible bits || isTranslated bits || isNat64 bits then
    [segmentPair bits 6] else []) ++
  (if isSixToFour bits then [segmentPair bits 1] else []) ++
  (if isTeredo bits then [segmentPair bits 2, ~~~ segmentPair bits 6] else []) ++
  (if isLocalNat64 bits then
    [segmentPair bits 6, segment bits 3 ++ bits.extractLsb' 40 16] else [])

def IpAddr.embedded : IpAddr → List (BitVec 32)
  | .v4 _ => []
  | .v6 bits => Exit.embedded bits

/-- An IPv4-translated address of a target that is not public. -/
def hidesTarget : IpAddr → Bool
  | .v4 _ => false
  | .v6 bits => isTranslated bits && !publicV4 (segmentPair bits 6)

/-- The prefixes of 6to4, Teredo and NAT64 do not pass the rule. -/
theorem not_public_of_translation {bits : BitVec 128}
    (h : isSixToFour bits ∨ isTeredo bits ∨ isNat64 bits ∨ isLocalNat64 bits) :
    publicV6 bits = false := by
  have hfirst : segment bits 0 ≠ 0#16 := by
    rcases h with h | h | h | h <;>
      simp only [isSixToFour, isTeredo, isNat64, isLocalNat64, Bool.and_eq_true,
        decide_eq_true_eq] at h
    · rw [h]
      decide
    · rw [h.1]
      decide
    · rw [h.1.1]
      decide
    · rw [h.1.1]
      decide
  have hplain : isMapped bits = false ∧ isCompatible bits = false := by
    simp [isMapped, isCompatible, zeroSegments, List.range', hfirst]
  rw [publicV6, if_neg (by simp [hplain.1]), if_neg (by simp [hplain.2])]
  rcases h with h | h | h | h <;>
    simp only [isSixToFour, isTeredo, isNat64, isLocalNat64, Bool.and_eq_true,
      decide_eq_true_eq] at h
  · simp [h]
  · simp [h.1, h.2]
  · simp [h.1.1, h.1.2, h.2]
  · simp [h.1.1, h.1.2, h.2]

/-- **An address that passes the rule carries a non-public one exactly if it is the IPv4-translated
form of a non-public address.** -/
theorem embedded_public_iff {ip : IpAddr} (h : publicEgressIp ip) :
    (∀ bits ∈ ip.embedded, publicV4 bits) ↔ hidesTarget ip = false := by
  cases ip with
  | v4 bits => simp [IpAddr.embedded, hidesTarget]
  | v6 bits =>
    have hpublic : publicV6 bits := h
    have hno : isSixToFour bits = false ∧ isTeredo bits = false ∧ isNat64 bits = false ∧
        isLocalNat64 bits = false := by
      have hnot : ¬ (isSixToFour bits ∨ isTeredo bits ∨ isNat64 bits ∨ isLocalNat64 bits) := by
        intro h
        simp [not_public_of_translation h] at hpublic
      simpa [not_or] using hnot
    obtain ⟨hsix, hteredo, hnat, hlocal⟩ := hno
    simp only [IpAddr.embedded, Exit.embedded, hsix, hteredo, hnat, hlocal, hidesTarget]
    by_cases ht : isTranslated bits
    · simp [ht]
    · by_cases hm : isMapped bits || isCompatible bits
      · have hinner : publicV4 (segmentPair bits 6) := by
          rw [publicV6] at hpublic
          rcases Bool.or_eq_true_iff.1 hm with hm | hm <;> split_ifs at hpublic <;> exact hpublic
        simp [hinner]
      · simp_all

end Exit

end RandallFlare
