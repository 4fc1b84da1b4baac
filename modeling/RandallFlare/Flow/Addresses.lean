import RandallFlare.Exit.Addresses

/-!
# The addresses the HTTP node of a flow may reach

A translation of `is_public_ip` of the flows.  It looks into an IPv4-mapped address and into no
other form in which an IPv6 address carries an IPv4 address: where `public_egress_ip` refuses
`::10.0.0.1`, `2002:a00:1::` and `64:ff9b::10.0.0.1`, they pass here.

* `isPublicIp`: the rule;
* `Encloses`: an address that passes is of no internal class, nor is the one it carries;
* `encloses_iff`: this fails exactly for the addresses of `tunnels`.
-/

namespace RandallFlare

namespace Flow

open Exit

/-- `is_private`, `is_loopback`, `is_link_local`, `is_multicast` or `is_unspecified`. -/
def internalV4 (bits : BitVec 32) : Bool :=
  let a := bits.extractLsb' 24 8
  let b := bits.extractLsb' 16 8
  (a = 10 || (a = 172 && 16 ≤ b && b ≤ 31) || (a = 192 && b = 168)) || a = 127 ||
    (a = 169 && b = 254) || (224 ≤ a && a ≤ 239) || bits = 0

/-- Loopback, unspecified, multicast, unique-local or link-local. -/
def internalV6 (bits : BitVec 128) : Bool :=
  bits = 1 || bits = 0 || segment bits 0 &&& 0xff00 = 0xff00 ||
    segment bits 0 &&& 0xfe00 = 0xfc00 || segment bits 0 &&& 0xffc0 = 0xfe80

def isPublicV4 (bits : BitVec 32) : Bool :=
  let a := bits.extractLsb' 24 8
  let b := bits.extractLsb' 16 8
  let c := bits.extractLsb' 8 8
  !(internalV4 bits || a = 0 || 224 ≤ a || (a = 100 && 64 ≤ b && b ≤ 127) ||
    (a = 192 && b = 0 && c = 0) || (a = 198 && (b = 18 || b = 19)))

def isPublicV6 (bits : BitVec 128) : Bool :=
  if isMapped bits then isPublicV4 (segmentPair bits 6) else !internalV6 bits

def isPublicIp : IpAddr → Bool
  | .v4 bits => isPublicV4 bits
  | .v6 bits => isPublicV6 bits

/-- The address is of an internal class of its family. -/
def internal : IpAddr → Bool
  | .v4 bits => internalV4 bits
  | .v6 bits => internalV6 bits

/-- The IPv4 addresses an address carries, mapped, compatible, by 6to4 or by NAT64. -/
def carried : IpAddr → List (BitVec 32)
  | .v4 _ => []
  | .v6 bits =>
    (if isMapped bits || isCompatible bits || isNat64 bits then [segmentPair bits 6] else []) ++
      (if isSixToFour bits then [segmentPair bits 1] else [])

/-- An address that passes is of no internal class, and each it carries would pass as well. -/
def Encloses (ip : IpAddr) : Prop :=
  isPublicIp ip → (∀ bits ∈ carried ip, isPublicIp (.v4 bits)) ∧ internal ip = false

/-- A compatible, 6to4 or NAT64 address around one that would not pass. -/
def tunnels : IpAddr → Bool
  | .v4 _ => false
  | .v6 bits =>
    ((isCompatible bits && bits ≠ 0 && bits ≠ 1 || isNat64 bits) &&
      !isPublicV4 (segmentPair bits 6)) || (isSixToFour bits && !isPublicV4 (segmentPair bits 1))

/-- No internal class but `::` and `::1` starts as the forms around an IPv4 address do. -/
theorem internalV6_eq_false {bits : BitVec 128}
    (hs : segment bits 0 = 0 ∨ segment bits 0 = 0x64 ∨ segment bits 0 = 0x2002)
    (hzero : bits ≠ 0#128) (hone : bits ≠ 1#128) : internalV6 bits = false := by
  rcases hs with hs | hs | hs <;> simp [internalV6, hs, hzero, hone]

theorem ne_of_segment {bits other : BitVec 128} {i : ℕ} {x : BitVec 16} (h : segment bits i = x)
    (hother : segment other i ≠ x) : bits ≠ other := by
  rintro rfl
  exact hother h

/-- **An address that passes is of no internal class and carries only addresses that pass, exactly
if it is not a compatible, 6to4 or NAT64 address around one that does not.** -/
theorem encloses_iff (ip : IpAddr) : Encloses ip ↔ tunnels ip = false := by
  cases ip with
  | v4 bits =>
    simp only [Encloses, isPublicIp, carried, internal, tunnels, isPublicV4]
    cases internalV4 bits <;> simp
  | v6 bits =>
    simp only [Encloses, isPublicIp, carried, internal, tunnels, isPublicV6]
    by_cases hm : isMapped bits
    · -- The one form that is looked into: it is none of the others.
      obtain ⟨hfirst, hfive⟩ : segment bits 0 = 0 ∧ segment bits 5 = 0xffff := by
        simp [isMapped, zeroSegments, List.range'] at hm
        exact ⟨hm.1.1, hm.2⟩
      have hplain : internalV6 bits = false :=
        internalV6_eq_false (.inl hfirst) (ne_of_segment hfive (by decide))
          (ne_of_segment hfive (by decide))
      have hother : isCompatible bits = false ∧ isNat64 bits = false ∧ isSixToFour bits = false := by
        simp [isCompatible, isNat64, isSixToFour, zeroSegments, List.range', hfirst, hfive]
      simp [hm, hplain, hother]
    · by_cases hsix : isSixToFour bits
      · have hfirst : segment bits 0 = 0x2002 := by simpa [isSixToFour] using hsix
        have hplain := internalV6_eq_false (.inr (.inr hfirst))
          (ne_of_segment hfirst (by decide)) (ne_of_segment hfirst (by decide))
        have hother : isCompatible bits = false ∧ isNat64 bits = false := by
          simp [isCompatible, isNat64, zeroSegments, List.range', hfirst]
        simp [hm, hsix, hplain, hother]
      · by_cases hnat : isNat64 bits
        · have hfirst : segment bits 0 = 0x64 := by
            simp [isNat64] at hnat
            exact hnat.1.1
          have hplain := internalV6_eq_false (.inr (.inl hfirst))
            (ne_of_segment hfirst (by decide)) (ne_of_segment hfirst (by decide))
          simp [hm, hsix, hnat, hplain]
        · by_cases hc : isCompatible bits
          · have hfirst : segment bits 0 = 0 := by
              simp [isCompatible, zeroSegments, List.range'] at hc
              exact hc.1
            by_cases hedge : bits = 0#128 ∨ bits = 1#128
            · have hin : internalV6 bits := by
                rcases hedge with rfl | rfl <;> rfl
              have hnot : ¬ bits = 0#128 → bits = 1#128 := hedge.resolve_left
              simpa [hm, hsix, hnat, hc, hin] using fun hzero hone => absurd (hnot hzero) hone
            · rw [not_or] at hedge
              simp [hm, hsix, hnat, hc, hedge, internalV6_eq_false (.inl hfirst) hedge.1 hedge.2]
          · simp [hm, hsix, hnat, hc]

/-- `64:ff9b::127.0.0.1`, the loopback address behind NAT64, passes. -/
theorem not_encloses_loopback : isPublicIp (.v6 0x64ff9b00000000000000007f000001#128) ∧
      ¬ Encloses (.v6 0x64ff9b00000000000000007f000001#128) := by
  have hpass : isPublicIp (.v6 0x64ff9b00000000000000007f000001#128) := by decide
  refine ⟨hpass, fun h => ?_⟩
  have hinner : isPublicIp (.v4 0x7f000001#32) := (h hpass).1 _ (by decide)
  exact absurd hinner (by decide)

end Flow

end RandallFlare
