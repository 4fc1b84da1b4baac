import RandallFlare.Quorum.Raft
import Mathlib.Data.String.Basic

/-!
# Requests between nodes on the wire

The texts of a request a `PeerClient` seals for a node: `rf/src/auth.rs` and `rf/src/transport.rs`.
The ciphertext is bound to the timestamp, the method, the path and the target; the nonce is a header
of its own, in hexadecimal.  The cipher and the MAC under the cluster's secret are parameters.

* `hexDecode`: reads both cases, `hexEncode` writes lower case (`hexEncode_of_hexDecode`);
* `parseU64`: reads the timestamp (`parseU64_toString`);
* `Sealed`: a request as its client sealed it, `Sealed.wire` what the client sends.
-/

namespace RandallFlare

open List

/-! ### Hexadecimal text -/

/-- The value of a hexadecimal digit of either case. -/
def hexVal (c : Char) : Option ℕ :=
  if '0' ≤ c ∧ c ≤ '9' then some (c.toNat - 48)
  else if 'a' ≤ c ∧ c ≤ 'f' then some (c.toNat - 87)
  else if 'A' ≤ c ∧ c ≤ 'F' then some (c.toNat - 55)
  else none

/-- The digit written for a value. -/
def hexDigit (n : ℕ) : Char := Char.ofNat (if n < 10 then 48 + n else 87 + n)

def hexDecode : List Char → Option Bytes
  | [] => some []
  | [_] => none
  | a :: b :: t => do
      let x ← hexVal a
      let y ← hexVal b
      let rest ← hexDecode t
      some (UInt8.ofNat (16 * x + y) :: rest)

def hexEncode (l : Bytes) : List Char :=
  l.flatMap fun x => [hexDigit (x.toNat / 16), hexDigit (x.toNat % 16)]

/-- No capital letter among the digits. -/
def lowerHex (l : List Char) : Bool := l.all fun c => ¬ ('A' ≤ c ∧ c ≤ 'F')

theorem char_le_iff {a b : Char} : a ≤ b ↔ a.toNat ≤ b.toNat := Iff.rfl

theorem hexVal_lt {c : Char} {x : ℕ} (h : hexVal c = some x) : x < 16 := by
  unfold hexVal at h
  simp only [char_le_iff] at h
  split_ifs at h with h₁ h₂ h₃
  all_goals
    cases h
    simp only [show '0'.toNat = 48 from rfl, show '9'.toNat = 57 from rfl,
      show 'a'.toNat = 97 from rfl, show 'f'.toNat = 102 from rfl, show 'A'.toNat = 65 from rfl,
      show 'F'.toNat = 70 from rfl] at *
    omega

/-- A digit that is not a capital is the one written for its value. -/
theorem hexDigit_hexVal {c : Char} {x : ℕ} (h : hexVal c = some x)
    (hc : ¬ ('A' ≤ c ∧ c ≤ 'F')) : hexDigit x = c := by
  unfold hexVal at h
  rw [if_neg hc] at h
  simp only [char_le_iff] at h
  split_ifs at h with h₁ h₂
  all_goals
    cases h
    simp only [show '0'.toNat = 48 from rfl, show '9'.toNat = 57 from rfl] at h₁
    unfold hexDigit
  · rw [if_pos (by omega), show 48 + (c.toNat - 48) = c.toNat by omega, Char.ofNat_toNat]
  · simp only [show 'a'.toNat = 97 from rfl, show 'f'.toNat = 102 from rfl] at h₂
    rw [if_neg (by omega), show 87 + (c.toNat - 87) = c.toNat by omega, Char.ofNat_toNat]

/-- **Text without capitals is the encoding of what it decodes to.** -/
theorem hexEncode_of_hexDecode {l : List Char} {bytes : Bytes} (h : hexDecode l = some bytes)
    (hl : lowerHex l) : hexEncode bytes = l := by
  induction l using hexDecode.induct generalizing bytes with
  | case1 =>
    cases h
    rfl
  | case2 a => cases h
  | case3 a b t ih =>
    obtain ⟨x, hx, h⟩ := Option.bind_eq_some_iff.1 h
    obtain ⟨y, hy, h⟩ := Option.bind_eq_some_iff.1 h
    obtain ⟨rest, hrest, h⟩ := Option.bind_eq_some_iff.1 h
    cases h
    have hxl := hexVal_lt hx
    have hyl := hexVal_lt hy
    simp only [lowerHex, all_cons, Bool.and_eq_true, decide_eq_true_eq] at hl ih
    have htail := ih hrest hl.2.2
    have hbyte : (UInt8.ofNat (16 * x + y)).toNat = 16 * x + y := by
      rw [UInt8.toNat_ofNat']
      omega
    simp only [hexEncode, flatMap_cons, hbyte] at htail ⊢
    rw [htail, show (16 * x + y) / 16 = x by omega, show (16 * x + y) % 16 = y by omega,
      hexDigit_hexVal hx hl.1, hexDigit_hexVal hy hl.2.1]
    rfl

/-! ### Timestamps -/

/-- Rust's `parse::<u64>`: an optional plus sign and digits. -/
def parseU64 (text : String) : Option ℕ :=
  let digits := match text.toList with
    | '+' :: t => t
    | t => t
  if digits ≠ [] ∧ digits.all Char.isDigit ∧ Nat.ofDigitChars 10 digits 0 < UInt64.size then
    some (Nat.ofDigitChars 10 digits 0)
  else none

/-- A time is read back from its decimal text. -/
theorem parseU64_toString {n : ℕ} (h : n < UInt64.size) : parseU64 (toString n) = some n := by
  have hlist : (toString n).toList = Nat.toDigits 10 n := by
    simp [Nat.repr]
  have hdigit : ∀ c ∈ Nat.toDigits 10 n, c.isDigit :=
    fun c hc => Nat.isDigit_of_mem_toDigits (by omega) (by omega) hc
  have hval := Nat.ofDigitChars_ten_toDigits (n := n)
  unfold parseU64
  rw [hlist]
  have hplus : (match Nat.toDigits 10 n with
      | '+' :: t => t
      | t => t) = Nat.toDigits 10 n := by
    split
    · rename_i t heq
      rw [heq] at hdigit
      exact absurd (hdigit '+' mem_cons_self) (by decide)
    · rfl
  rw [hplus]
  rw [if_pos ⟨Nat.toDigits_ne_nil, all_eq_true.2 hdigit, by rw [hval]; exact h⟩, hval]

/-! ### Requests -/

/-- The cipher and the MAC under the secret of the cluster. -/
structure Cipher where
  /-- Nonce, associated data, ciphertext. -/
  openRaw : Bytes → String → Bytes → Option Bytes
  /-- Timestamp, method, path, body. -/
  macHex : ℕ → String → String → Bytes → String

/-- What a ciphertext is bound to. -/
def requestAad (ts method path target : String) : String :=
  "rf-peer-request-v2\n" ++ (ts ++ ("\n" ++ method ++ "\n" ++ path ++ "\n" ++ target))

theorem string_cancel {a b b' c : String} (h : a ++ (b ++ c) = a ++ (b' ++ c)) : b = b' := by
  have hlist := congrArg String.toList h
  simp only [String.toList_append] at hlist
  exact String.toList_inj.1 (append_cancel_right (append_cancel_left hlist))

theorem requestAad_injective {ts ts' method path target : String}
    (h : requestAad ts method path target = requestAad ts' method path target) : ts = ts' :=
  string_cancel h

/-- `transport::open`. -/
def Cipher.openHex (x : Cipher) (nonceHex aad : String) (ciphertext : Bytes) : Option Bytes := do
  let nonce ← hexDecode nonceHex.toList
  if nonce.length = 24 then x.openRaw nonce aad ciphertext else none

/-- `auth::MAX_SKEW_MS`. -/
def maxSkewMs : ℕ := 120000

/-- `auth::verify`. -/
def Cipher.verify (x : Cipher) (nowMs : ℕ) (tsHeader macHeader method path : String)
    (body : Bytes) : Bool :=
  match parseU64 tsHeader with
  | none => false
  | some ts =>
      if maxSkewMs < (nowMs - ts) + (ts - nowMs) then false
      else x.macHex ts method path body = macHeader

/-- The headers, and the body, of a request as the node receives it. -/
structure Wire where
  loopback : Bool
  encrypted : Option String
  ts : Option String
  mac : Option String
  nonce : Option String
  target : Option String
  stream : Option String
  decryptedStream : Option String
  method : String
  /-- With the query. -/
  path : String
  body : Bytes
  deriving DecidableEq

/-- `transport::VERSION`. -/
def transportVersion : String := "2"

def streamVersion : String := "1"

/-- A request as its client sealed it. -/
structure Sealed where
  ts : ℕ
  nonce : Bytes
  method : String
  path : String
  target : String
  body : Bytes
  ciphertext : Bytes
  ts_lt : ts < UInt64.size

/-- What the client sends. -/
def Sealed.wire (req : Sealed) (x : Cipher) : Wire where
  loopback := false
  encrypted := some transportVersion
  ts := some (toString req.ts)
  mac := some (x.macHex req.ts req.method req.path req.body)
  nonce := some (String.ofList (hexEncode req.nonce))
  target := some req.target
  stream := none
  decryptedStream := none
  method := req.method
  path := req.path
  body := req.ciphertext

/-- The ciphertext opens under no other nonce and no other associated data. -/
def Cipher.Binds (x : Cipher) (req : Sealed) : Prop :=
  ∀ nonce aad, (x.openRaw nonce aad req.ciphertext).isSome →
    nonce = req.nonce ∧ aad = requestAad (toString req.ts) req.method req.path req.target

end RandallFlare
