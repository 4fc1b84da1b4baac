import RandallFlare.Lib.Postcard
import RandallFlare.Peer.Wire

/-!
# Identities and signed envelopes

A translation of `rf-core/src/envelope.rs` and of the identities of `rf-core/src/identity.rs`.  A
node signs with ed25519, the operator with ed25519 or an Ethereum wallet.  The envelope carries the
bytes that were signed; nothing in it says what they are.  The hash and the signature schemes are a
parameter `Crypto`; what the source checks around them, the lengths of signatures first of all, is
modelled.

* `SignerId.verify`, `Envelope.digest`, `Envelope.openPayload` (`Envelope::open`);
* `Envelope.eq_of_digestInput`, `Envelope.payload_eq_of_digestInput`: the hashed bytes can be taken
  apart again.
-/

namespace RandallFlare

open Postcard List

/-- 32 bytes read as one big-endian number, so that the byte-wise order is that of the numbers. -/
abbrev Digest := BitVec 256

/-- The lowest `n` bytes of a number, highest first. -/
def beBytes (n v : ℕ) : Bytes := (range n).map fun i => UInt8.ofNat (v / 256 ^ (n - 1 - i))

/-- The number whose big-endian bytes these are. -/
def ofBeBytes (l : Bytes) : ℕ := l.foldl (fun acc b => 256 * acc + b.toNat) 0

@[simp] theorem length_beBytes (n v : ℕ) : (beBytes n v).length = n := by simp [beBytes]

theorem beBytes_succ (n v : ℕ) : beBytes (n + 1) v = UInt8.ofNat (v / 256 ^ n) :: beBytes n v := by
  simp only [beBytes, range_succ_eq_map, map_cons, map_map]
  refine congrArg₂ _ (by simp) (map_congr_left fun i _ => ?_)
  rw [Function.comp_apply, show n + 1 - 1 - i.succ = n - 1 - i by omega]

theorem ofBeBytes_beBytes (n v : ℕ) : ofBeBytes (beBytes n v) = v % 256 ^ n := by
  have hfold : ∀ acc, (beBytes n v).foldl (fun acc b => 256 * acc + b.toNat) acc =
      acc * 256 ^ n + v % 256 ^ n := by
    induction n with
    | zero => simp [beBytes, Nat.mod_one]
    | succ n ih =>
      intro acc
      have hbyte : (UInt8.ofNat (v / 256 ^ n)).toNat = v / 256 ^ n % 256 := by simp
      rw [beBytes_succ, foldl_cons, ih, hbyte, pow_succ, Nat.mod_mul]
      ring
  simpa [ofBeBytes] using hfold 0

theorem ofNat_ofBeBytes {w n : ℕ} (h : 256 ^ n = 2 ^ w) (v : BitVec w) :
    BitVec.ofNat w (ofBeBytes (beBytes n v.toNat)) = v := by
  rw [ofBeBytes_beBytes, h, Nat.mod_eq_of_lt v.isLt, BitVec.ofNat_toNat, BitVec.setWidth_eq]

theorem PublicId.toNat_key_injective : Function.Injective fun p : PublicId => p.key.toNat := by
  rintro ⟨a⟩ ⟨b⟩ h
  exact congrArg PublicId.mk (BitVec.toNat_inj.1 h)

/-! ### Hexadecimal -/

theorem utf8Size_hexDigit {n : ℕ} (h : n < 16) : (hexDigit n).utf8Size = 1 := by
  interval_cases n <;> rfl

theorem utf8Len_hexEncode (l : Bytes) : String.utf8Len (hexEncode l) = 2 * l.length := by
  induction l with
  | nil => rfl
  | cons b l ih =>
    have hb := b.toNat_lt
    have hhigh := utf8Size_hexDigit (n := b.toNat / 16) (by omega)
    have hlow := utf8Size_hexDigit (n := b.toNat % 16) (by omega)
    show String.utf8Len (hexDigit _ :: hexDigit _ :: hexEncode l) = _
    rw [String.utf8Len_cons, String.utf8Len_cons, ih, hhigh, hlow, length_cons]
    omega

theorem length_hexEncode (l : Bytes) : (hexEncode l).length = 2 * l.length := by
  induction l with
  | nil => rfl
  | cons b l ih =>
    show (hexDigit _ :: hexDigit _ :: hexEncode l).length = _
    rw [length_cons, length_cons, ih, length_cons]
    omega

theorem hexVal_hexDigit {n : ℕ} (h : n < 16) : hexVal (hexDigit n) = some n := by
  interval_cases n <;> rfl

theorem hexDecode_hexEncode (l : Bytes) : hexDecode (hexEncode l) = some l := by
  induction l with
  | nil => rfl
  | cons b l ih =>
    have hb := b.toNat_lt
    have hvalue : 16 * (b.toNat / 16) + b.toNat % 16 = b.toNat := Nat.div_add_mod _ _
    show hexDecode (hexDigit _ :: hexDigit _ :: hexEncode l) = _
    rw [hexDecode, hexVal_hexDigit (by omega), hexVal_hexDigit (by omega), ih]
    show some (UInt8.ofNat (16 * (b.toNat / 16) + b.toNat % 16) :: l) = some (b :: l)
    rw [hvalue, UInt8.ofNat_toNat]

def hexDigest (d : Digest) : String := String.ofList (hexEncode (beBytes 32 d.toNat))

theorem hexDigest_injective : Function.Injective hexDigest := by
  intro d e h
  have hbytes : beBytes 32 d.toNat = beBytes 32 e.toNat :=
    Option.some.inj (by
      rw [← hexDecode_hexEncode, ← hexDecode_hexEncode, String.ofList_injective h])
  rw [← ofNat_ofBeBytes (by norm_num : 256 ^ 32 = 2 ^ 256) d, hbytes,
    ofNat_ofBeBytes (by norm_num) e]

/-! ### Signers -/

/-- Who signed something. -/
inductive SignerId
  | ed (pk : PublicId)
  | eth (addr : BitVec 160)
  deriving DecidableEq

/-- The hash and the signature schemes. -/
structure Crypto where
  sha256 : Bytes → Digest
  /-- ed25519: key, message, signature. -/
  edVerify : PublicId → Bytes → Bytes → Bool
  /-- The address that signed a message with `r ‖ s` and this recovery id. -/
  recover : Bytes → Bytes → ℕ → Option (BitVec 160)

/-- The hash tells these inputs apart. -/
def Crypto.CollisionFree (x : Crypto) (inputs : List Bytes) : Prop :=
  ∀ a ∈ inputs, ∀ b ∈ inputs, x.sha256 a = x.sha256 b → a = b

instance (x : Crypto) (inputs : List Bytes) : Decidable (x.CollisionFree inputs) :=
  (inferInstance : Decidable (∀ a ∈ inputs, ∀ b ∈ inputs, x.sha256 a = x.sha256 b → a = b))

/-- A polynomial for the hash, and signatures that only need their length. -/
def sampleCrypto : Crypto where
  sha256 := fun l => BitVec.ofNat 256 (l.foldl (fun acc b => 257 * acc + b.toNat + 1) 0)
  edVerify := fun _ _ _ => true
  recover := fun _ _ _ => none

/-- The address behind an EIP-191 signature `r ‖ s ‖ v`. -/
def ethRecover (x : Crypto) (payload sig : Bytes) : Option (BitVec 160) :=
  if sig.length ≠ 65 then none
  else
    let v := (sig.getD 64 0).toNat
    if v < 27 then none else x.recover payload (sig.take 64) (v - 27)

namespace SignerId

/-- The text form: 64 hexadecimal digits, or `0x` and 40 of them. -/
def text : SignerId → String
  | ed pk => String.ofList (hexEncode (beBytes 32 pk.key.toNat))
  | eth addr => String.ofList ('0' :: 'x' :: hexEncode (beBytes 20 addr.toNat))

/-- The signature is this identity's, for the payload. -/
def verify (x : Crypto) (s : SignerId) (payload sig : Bytes) : Bool :=
  match s with
  | ed pk => sig.length = 64 && x.edVerify pk payload sig
  | eth addr => ethRecover x payload sig = some addr

def sigLength : SignerId → ℕ
  | ed _ => 64
  | eth _ => 65

theorem length_toList_text_ed (pk : PublicId) : (ed pk).text.toList.length = 64 := by
  rw [text, String.toList_ofList, length_hexEncode, length_beBytes]

theorem text_ed_injective : Function.Injective fun pk => (ed pk).text := by
  rintro ⟨p⟩ ⟨q⟩ h
  exact congrArg PublicId.mk (hexDigest_injective h)

theorem length_text_ed (pk : PublicId) : (utf8 (ed pk).text).length = 64 := by
  have hsize : (utf8 (ed pk).text).length = (ed pk).text.utf8ByteSize := by
    simp [utf8]
  rw [hsize, text, String.utf8ByteSize_ofList, utf8Len_hexEncode, length_beBytes]

theorem length_of_verify {x : Crypto} {s : SignerId} {payload sig : Bytes}
    (h : s.verify x payload sig) : sig.length = s.sigLength := by
  cases s with
  | ed pk =>
    simp only [verify, Bool.and_eq_true, decide_eq_true_eq] at h
    exact h.1
  | eth addr =>
    simp only [verify, decide_eq_true_eq] at h
    by_contra hne
    have hlen : sig.length ≠ 65 := hne
    rw [ethRecover, if_pos hlen] at h
    cases h

end SignerId

/-- A payload with its signature. -/
structure Envelope where
  payload : Bytes
  signer : SignerId
  sig : Bytes
  deriving DecidableEq

/-- Why an envelope does not open. -/
inductive EnvelopeError
  | badSignature
  | decode
  deriving DecidableEq

namespace Envelope

/-- Check the signature, and that it is the expected signer's if one is given, and decode; bytes
after the decoded value are ignored. -/
def openPayload {T : Type} (x : Crypto) (decoder : Postcard.Decoder T) (expected : Option SignerId)
    (env : Envelope) : Except EnvelopeError T :=
  if expected.any (· ≠ env.signer) then .error .badSignature
  else if ¬ env.signer.verify x env.payload env.sig then .error .badSignature
  else match decoder env.payload with
    | some (v, _) => .ok v
    | none => .error .decode

/-- The bytes that identify an envelope, before hashing. -/
def digestInput (env : Envelope) : Bytes :=
  env.payload ++ (utf8 env.signer.text ++ env.sig)

/-- The hash that dedup, tie-breaks and chain links use. -/
def digest (x : Crypto) (env : Envelope) : Digest := x.sha256 env.digestInput

theorem openPayload_eq_ok {T : Type} {x : Crypto} {decoder : Postcard.Decoder T}
    {expected : Option SignerId} {env : Envelope} {v : T} :
    env.openPayload x decoder expected = .ok v ↔
      (∀ s, expected = some s → env.signer = s) ∧ env.signer.verify x env.payload env.sig ∧
        ∃ rest, decoder env.payload = some (v, rest) := by
  unfold openPayload
  constructor
  · intro h
    split_ifs at h with hexp hver
    refine ⟨?_, hver, ?_⟩
    · rintro s rfl
      by_contra hne
      exact hexp (by simpa using Ne.symm hne)
    · cases hdec : decoder env.payload with
      | none =>
        rw [hdec] at h
        cases h
      | some p =>
        rw [hdec] at h
        cases h
        exact ⟨p.2, rfl⟩
  · rintro ⟨hexp, hver, rest, hdec⟩
    have hany : ¬ expected.any (· ≠ env.signer) := by
      cases expected with
      | none => simp
      | some s => simp [hexp s rfl]
    rw [if_neg hany, if_neg (not_not.2 hver), hdec]

variable {e f : Envelope}

/-- An envelope can be read off its hashed bytes, once its signer is known and the length of its
signature. -/
theorem eq_of_digestInput (hsigner : e.signer = f.signer)
    (hlen : e.sig.length = f.sig.length) (h : e.digestInput = f.digestInput) : e = f := by
  obtain ⟨p, s, g⟩ := e
  obtain ⟨q, t, k⟩ := f
  obtain rfl : s = t := hsigner
  have h' : (p ++ utf8 s.text) ++ g = (q ++ utf8 s.text) ++ k := by
    simpa only [digestInput, append_assoc] using h
  obtain ⟨hpre, rfl⟩ := append_inj' h' hlen
  rw [append_cancel_right hpre]

theorem eq_of_digest_eq {S T : Type} {x : Crypto} {decoder : Postcard.Decoder S}
    {decoder' : Postcard.Decoder T} {signer : SignerId} {envs : List Envelope}
    {v : S} {w : T} (hsha : x.CollisionFree (envs.map digestInput)) (he : e ∈ envs) (hf : f ∈ envs)
    (hv : e.openPayload x decoder (some signer) = .ok v)
    (hw : f.openPayload x decoder' (some signer) = .ok w)
    (h : e.digest x = f.digest x) : e = f := by
  obtain ⟨hsigner, hverify, -⟩ := openPayload_eq_ok.1 hv
  obtain ⟨hsigner', hverify', -⟩ := openPayload_eq_ok.1 hw
  have hs := (hsigner signer rfl).trans (hsigner' signer rfl).symm
  refine eq_of_digestInput hs ?_ (hsha _ (mem_map_of_mem he) _ (mem_map_of_mem hf) h)
  rw [SignerId.length_of_verify hverify, SignerId.length_of_verify hverify', hs]

/-- Envelopes of nodes with the same hashed bytes have the same payload. -/
theorem payload_eq_of_digestInput {pk pk' : PublicId} (hs : e.signer = .ed pk)
    (hs' : f.signer = .ed pk') (hlen : e.sig.length = f.sig.length)
    (h : e.digestInput = f.digestInput) : e.payload = f.payload := by
  refine (append_inj' h ?_).1
  rw [length_append, length_append, hs, hs', SignerId.length_text_ed, SignerId.length_text_ed, hlen]

/-- An envelope with a signature of the right length, for `sampleCrypto`. -/
def sample (signer : SignerId) (payload : Bytes) : Envelope :=
  ⟨payload, signer, replicate signer.sigLength 0⟩

end Envelope

/-! ### Bytes of an envelope -/

open Postcard (Decoder bind_eq_some)

/-- A key: 32 bytes after their length. -/
def publicIdDecoder : Decoder PublicId := do
  let n ← usize
  let b ← bytes n
  if b.length = 32 then pure ⟨BitVec.ofNat 256 (ofBeBytes b)⟩ else failure

namespace SignerId

def decoder : Decoder SignerId := do
  match ← u32 with
  | 0 => do
      let pk ← publicIdDecoder
      pure (.ed pk)
  | 1 => do
      let b ← bytes 20
      pure (.eth (BitVec.ofNat 160 (ofBeBytes b)))
  | _ => failure

def encode : SignerId → Bytes
  | ed pk => 0 :: putByteVec (beBytes 32 pk.key.toNat)
  | eth addr => 1 :: beBytes 20 addr.toNat

theorem decoder_encode (s : SignerId) (t : Bytes) : decoder (s.encode ++ t) = some (s, t) := by
  cases s with
  | ed pk =>
    refine bind_eq_some.2 ⟨0, _, varint_of_lt (b := 0) _ (by decide) (by decide), ?_⟩
    refine bind_eq_some.2 ⟨pk, t, ?_, rfl⟩
    refine bind_eq_some.2 ⟨32, beBytes 32 pk.key.toNat ++ t, ?_, ?_⟩
    · have hread := u64_putU64 (v := 32) (by decide) (beBytes 32 pk.key.toNat ++ t)
      exact hread
    · refine bind_eq_some.2 ⟨_, t, bytes_eq_some.2 ⟨length_beBytes _ _, rfl⟩, ?_⟩
      rw [if_pos (length_beBytes _ _), ofNat_ofBeBytes (by norm_num)]
      rfl
  | eth addr =>
    refine bind_eq_some.2 ⟨1, _, varint_of_lt (b := 1) _ (by decide) (by decide), ?_⟩
    refine bind_eq_some.2 ⟨_, t, bytes_eq_some.2 ⟨length_beBytes _ _, rfl⟩, ?_⟩
    rw [ofNat_ofBeBytes (by norm_num)]
    rfl

end SignerId

namespace Envelope

def decoder : Decoder Envelope := do
  let payload ← byteVec
  let signer ← SignerId.decoder
  let sig ← byteVec
  pure ⟨payload, signer, sig⟩

def toBytes (env : Envelope) : Bytes :=
  putByteVec env.payload ++ (env.signer.encode ++ putByteVec env.sig)

/-- `Envelope::from_bytes`; bytes after the envelope are ignored. -/
def fromBytes (b : Bytes) : Except EnvelopeError Envelope :=
  match decoder b with
  | some (env, _) => .ok env
  | none => .error .decode

theorem fromBytes_toBytes {b : Bytes} {env : Envelope} (h : fromBytes b = .ok env) :
    fromBytes env.toBytes = .ok env := by
  unfold fromBytes at h
  split at h
  · rename_i e rest hdec
    cases h
    obtain ⟨payload, t, hpayload, hdec⟩ := bind_eq_some.1 hdec
    obtain ⟨signer, u, -, hdec⟩ := bind_eq_some.1 hdec
    obtain ⟨sig, v, hsig, hpure⟩ := bind_eq_some.1 hdec
    cases hpure
    have hwritten : decoder (Envelope.toBytes ⟨payload, signer, sig⟩) =
        some (⟨payload, signer, sig⟩, []) := by
      refine bind_eq_some.2 ⟨payload, _, byteVec_putByteVec (length_lt_of_byteVec hpayload) _, ?_⟩
      refine bind_eq_some.2 ⟨signer, _, SignerId.decoder_encode signer _, ?_⟩
      refine bind_eq_some.2 ⟨sig, [], ?_, rfl⟩
      have hread := byteVec_putByteVec (length_lt_of_byteVec hsig) []
      rwa [append_nil] at hread
    unfold fromBytes
    rw [hwritten]
  · cases h

end Envelope

end RandallFlare
