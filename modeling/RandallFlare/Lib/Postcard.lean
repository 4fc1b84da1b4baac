import Mathlib.Data.List.Basic
import Mathlib.Tactic

/-!
# The postcard wire format

Values are written one after the other without tags: an integer wider than a byte as a varint of
seven bits a byte, lowest first; a string as its length and its UTF-8 bytes; an option as a byte `0`
or `1` and, in the second case, the value; a sequence as its length and its items.  A decoder reads
a value from the front of the input and leaves the rest, which the caller of the outermost one
ignores.

* `u8`, `bool`, `u32`, `u64`, `usize`, `bytes`, `byteVec`, `str`, `option`, `seq` are the decoders;
* `putU64`, `putByteVec`, `putStr`, `putOption`, `putSeq` are the encoders.
-/

namespace Postcard

/-- A decoder: the value at the front of the input, and the input after it. -/
abbrev Decoder := StateT (List UInt8) Option

variable {α β : Type}

variable {b r : List UInt8} {last n v : ℕ} {s : String} {l : List UInt8}

theorem bind_eq_some {x : Decoder α} {f : α → Decoder β} {v : β} :
    (x >>= f) b = some (v, r) ↔ ∃ a t, x b = some (a, t) ∧ f a t = some (v, r) := by
  show (x b >>= fun p => f p.1 p.2) = some (v, r) ↔ _
  cases hx : x b with
  | none => simp
  | some p =>
    refine ⟨fun h => ⟨p.1, p.2, rfl, h⟩, ?_⟩
    rintro ⟨a, t, ha, h⟩
    cases ha
    exact h

/-! ### Bytes and integers -/

def u8 : Decoder UInt8
  | [] => none
  | b :: t => some (b, t)

@[simp] theorem u8_cons (b : UInt8) (t : List UInt8) : u8 (b :: t) = some (b, t) := rfl

theorem u8_eq_some {v : UInt8} : u8 b = some (v, r) ↔ b = v :: r := by
  cases b with
  | nil => simp [u8]
  | cons c t => simp [u8]

/-- A byte that is `0` or `1`. -/
def bool : Decoder Bool := do
  match ← u8 with
  | 0 => pure false
  | 1 => pure true
  | _ => failure

/-- A varint of at most `n` bytes, the last of which is at most `last`. -/
def varint (last : ℕ) : ℕ → Decoder ℕ
  | 0 => failure
  | n + 1 => do
      let b ← u8
      if b.toNat < 128 then
        if n = 0 ∧ last < b.toNat then failure else pure b.toNat
      else do
        let high ← varint last n
        pure (b.toNat - 128 + 128 * high)

def u32 : Decoder ℕ := varint 15 5

def u64 : Decoder ℕ := varint 1 10

/-- A length, on a machine of 64 bits. -/
def usize : Decoder ℕ := u64

theorem varint_of_lt {b : UInt8} (t : List UInt8) (hb : b.toNat < 128) (hn : n ≠ 0) :
    varint last (n + 1) (b :: t) = some (b.toNat, t) := by
  show (if b.toNat < 128 then _ else _ : Decoder ℕ) t = _
  rw [if_pos hb, if_neg (fun h => hn h.1)]
  rfl

/-- A varint of `n` bytes has seven bits a byte, but for the last one. -/
theorem varint_lt (h : varint last (n + 1) b = some (v, r)) : v < (last + 1) * 128 ^ n := by
  induction n generalizing v b with
  | zero =>
    obtain ⟨c, t, hc, hrest⟩ := bind_eq_some.1 h
    split_ifs at hrest with hlow hlast
    · cases hrest
    · cases hrest
      omega
    · obtain ⟨a, u, ha, -⟩ := bind_eq_some.1 hrest
      cases ha
  | succ n ih =>
    obtain ⟨c, t, hc, hrest⟩ := bind_eq_some.1 h
    have hpow : 1 ≤ (last + 1) * 128 ^ n := Nat.one_le_iff_ne_zero.2 (by positivity)
    rw [pow_succ, ← mul_assoc]
    split_ifs at hrest with hlow hlast
    · exact hlast.1.elim
    · cases hrest
      omega
    · obtain ⟨a, u, ha, hpure⟩ := bind_eq_some.1 hrest
      cases hpure
      have hhigh := ih ha
      have hc' := c.toNat_lt
      omega
theorem u64_lt {v : ℕ} {b r : List UInt8} (h : u64 b = some (v, r)) : v < UInt64.size := varint_lt h

/-- The next `n` bytes. -/
def bytes (n : ℕ) : Decoder (List UInt8) := fun b =>
  if n ≤ b.length then some (b.take n, b.drop n) else none

theorem bytes_eq_some {v : List UInt8} : bytes n b = some (v, r) ↔ v.length = n ∧ b = v ++ r := by
  unfold bytes
  constructor
  · intro h
    split_ifs at h with hn
    cases h
    exact ⟨by simpa using hn, (List.take_append_drop n b).symm⟩
  · rintro ⟨rfl, rfl⟩
    simp

/-! ### Strings, options and sequences -/

/-- The UTF-8 bytes of a string. -/
def utf8 (s : String) : List UInt8 := s.toByteArray.data.toList

/-- A string: its length in bytes and its bytes, which have to be UTF-8. -/
def str : Decoder String := do
  let n ← usize
  let b ← bytes n
  match String.fromUTF8? ⟨b.toArray⟩ with
  | some s => pure s
  | none => failure

theorem utf8_of_fromUTF8 (h : String.fromUTF8? ⟨b.toArray⟩ = some s) : utf8 s = b := by
  unfold String.fromUTF8? at h
  split_ifs at h
  cases h
  rfl

theorem str_eq_some (h : str b = some (s, r)) : usize b = some ((utf8 s).length, utf8 s ++ r) := by
  obtain ⟨n, t, hn, hbytes⟩ := bind_eq_some.1 h
  obtain ⟨v, u, hv, hmatch⟩ := bind_eq_some.1 hbytes
  obtain ⟨hlen, rfl⟩ := bytes_eq_some.1 hv
  clear h hbytes
  cases hs : String.fromUTF8? ⟨v.toArray⟩ with
  | none =>
    rw [hs] at hmatch
    cases hmatch
  | some s' =>
    rw [hs] at hmatch
    cases hmatch
    rw [utf8_of_fromUTF8 hs, hlen]
    exact hn

def option (d : Decoder α) : Decoder (Option α) := do
  match ← u8 with
  | 0 => pure none
  | 1 => some <$> d
  | _ => failure

theorem option_eq_some {d : Decoder α} {b : UInt8} {t : List UInt8} {v : Option α}
    (h : option d (b :: t) = some (v, r)) : b = 0 ∨ b = 1 := by
  by_contra hb
  push Not at hb
  obtain ⟨c, u, hc, htag⟩ := bind_eq_some.1 h
  cases hc
  split at htag
  · exact hb.1 rfl
  · exact hb.2 rfl
  · cases htag

/-- `n` values of one kind. -/
def count (d : Decoder α) : ℕ → Decoder (List α)
  | 0 => pure []
  | n + 1 => do
      let a ← d
      let l ← count d n
      pure (a :: l)

/-- A sequence: its length and its items. -/
def seq (d : Decoder α) : Decoder (List α) := do
  let n ← usize
  count d n

/-! ### Encoders -/

/-- A varint of at most `n` bytes. -/
def putVarint : ℕ → ℕ → List UInt8
  | 0, _ => []
  | n + 1, v =>
      if v < 128 then [UInt8.ofNat v] else UInt8.ofNat (v % 128 + 128) :: putVarint n (v / 128)

def putU64 (v : ℕ) : List UInt8 := putVarint 10 v

def putBool (v : Bool) : List UInt8 := if v then [1] else [0]

def putStr (s : String) : List UInt8 := putU64 (utf8 s).length ++ utf8 s

def putOption (put : α → List UInt8) : Option α → List UInt8
  | none => [0]
  | some a => 1 :: put a

def putSeq (put : α → List UInt8) (l : List α) : List UInt8 := putU64 l.length ++ l.flatMap put

/-- Bytes after their length. -/
def byteVec : Decoder (List UInt8) := do
  let n ← usize
  bytes n

def putByteVec (l : List UInt8) : List UInt8 := putU64 l.length ++ l

/-! ### Round trips -/

theorem varint_putVarint (hlast : last < 128) (h : v < (last + 1) * 128 ^ n)
    (t : List UInt8) : varint last (n + 1) (putVarint (n + 1) v ++ t) = some (v, t) := by
  induction n generalizing v with
  | zero =>
    have hb : (UInt8.ofNat v).toNat = v := by
      rw [UInt8.toNat_ofNat']
      omega
    rw [putVarint, if_pos (by omega)]
    refine bind_eq_some.2 ⟨UInt8.ofNat v, t, rfl, ?_⟩
    rw [hb, if_pos (by omega), if_neg (by omega)]
    rfl
  | succ n ih =>
    rw [putVarint]
    split_ifs with hlow
    · have hb : (UInt8.ofNat v).toNat = v := by
        rw [UInt8.toNat_ofNat']
        omega
      rw [List.singleton_append, varint_of_lt t (by omega) n.succ_ne_zero, hb]
    · have hb : (UInt8.ofNat (v % 128 + 128)).toNat = v % 128 + 128 := by
        rw [UInt8.toNat_ofNat']
        omega
      have hhigh : v / 128 < (last + 1) * 128 ^ n := by
        rw [Nat.div_lt_iff_lt_mul (by decide), mul_assoc, ← pow_succ]
        exact h
      refine bind_eq_some.2 ⟨UInt8.ofNat (v % 128 + 128), _, rfl, ?_⟩
      rw [hb, if_neg (by omega)]
      refine bind_eq_some.2 ⟨v / 128, t, ih hhigh, ?_⟩
      rw [show v % 128 + 128 - 128 + 128 * (v / 128) = v by omega]
      rfl

theorem u64_putU64 (h : v < UInt64.size) (t : List UInt8) : u64 (putU64 v ++ t) = some (v, t) :=
  varint_putVarint (by decide) h t

theorem byteVec_putByteVec (h : l.length < UInt64.size) (t : List UInt8) :
    byteVec (putByteVec l ++ t) = some (l, t) := by
  unfold putByteVec
  rw [List.append_assoc]
  exact bind_eq_some.2 ⟨l.length, l ++ t, u64_putU64 h _, bytes_eq_some.2 ⟨rfl, rfl⟩⟩

theorem length_lt_of_byteVec (h : byteVec b = some (l, r)) : l.length < UInt64.size := by
  obtain ⟨n, t, hn, hl⟩ := bind_eq_some.1 h
  rw [(bytes_eq_some.1 hl).1]
  exact u64_lt hn

end Postcard
