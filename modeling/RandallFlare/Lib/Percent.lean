import Mathlib.Tactic

/-!
# Percent-encoding and UTF-8

Texts of a URL: percent-decoding gives bytes, and bytes are read as UTF-8 either strictly or with a
replacement character for each part that is not UTF-8.  Encoding with the unreserved characters of
RFC 3986 loses nothing.

* `decode`, `utf8Lossy`, `utf8Strict`: how the parts of a URL are read;
* `encode`, `encode_injective`: how bytes are written.
-/

namespace Percent

open List

def hexVal (b : UInt8) : Option ℕ :=
  let n := b.toNat
  if 48 ≤ n && n ≤ 57 then some (n - 48)
  else if 65 ≤ n && n ≤ 70 then some (n - 55)
  else if 97 ≤ n && n ≤ 102 then some (n - 87)
  else none

/-- The bytes that a percent-encoded text stands for; a `%` without two digits is itself. -/
def decode : List UInt8 → List UInt8
  | [] => []
  | b :: h :: l :: rest =>
      if b = 37 then
        match hexVal h, hexVal l with
        | some x, some y => UInt8.ofNat (16 * x + y) :: decode rest
        | _, _ => b :: decode (h :: l :: rest)
      else b :: decode (h :: l :: rest)
  | b :: rest => b :: decode rest

/-! ### UTF-8 -/

/-- The byte continues a character. -/
def isContinuation (b : UInt8) : Bool := 128 ≤ b.toNat && b.toNat ≤ 191

/-- The second byte of a character of three or four bytes, for its first byte. -/
def isSecond (b c : UInt8) : Bool :=
  let n := c.toNat
  match b.toNat with
  | 0xE0 => 0xA0 ≤ n && n ≤ 0xBF
  | 0xED => 0x80 ≤ n && n ≤ 0x9F
  | 0xF0 => 0x90 ≤ n && n ≤ 0xBF
  | 0xF4 => 0x80 ≤ n && n ≤ 0x8F
  | _ => 0x80 ≤ n && n ≤ 0xBF

/-- The character at the start of a text, or `none` for a part that is not UTF-8; and the rest. -/
def utf8Next (b : UInt8) (rest : List UInt8) : Option Char × List UInt8 :=
  let n := b.toNat
  let low := fun c : UInt8 => c.toNat % 64
  if n < 128 then (some (Char.ofNat n), rest)
  else if 0xC2 ≤ n && n ≤ 0xDF then
    match rest with
    | c :: rest' =>
        if isContinuation c then (some (Char.ofNat (n % 32 * 64 + low c)), rest') else (none, rest)
    | [] => (none, [])
  else if 0xE0 ≤ n && n ≤ 0xEF then
    match rest with
    | c :: rest' =>
        if isSecond b c then
          match rest' with
          | d :: rest'' =>
              if isContinuation d then
                (some (Char.ofNat (n % 16 * 4096 + low c * 64 + low d)), rest'')
              else (none, rest')
          | [] => (none, [])
        else (none, rest)
    | [] => (none, [])
  else if 0xF0 ≤ n && n ≤ 0xF4 then
    match rest with
    | c :: rest' =>
        if isSecond b c then
          match rest' with
          | d :: rest'' =>
              if isContinuation d then
                match rest'' with
                | e :: rest''' =>
                    if isContinuation e then
                      (some (Char.ofNat (n % 8 * 262144 + low c * 4096 + low d * 64 + low e)),
                        rest''')
                    else (none, rest'')
                | [] => (none, [])
              else (none, rest')
          | [] => (none, [])
        else (none, rest)
    | [] => (none, [])
  else (none, rest)

/-- The characters of a text of at most `fuel` bytes, `none` for each part that is not UTF-8. -/
def utf8Chunks : ℕ → List UInt8 → List (Option Char)
  | fuel + 1, b :: rest =>
      let next := utf8Next b rest
      next.1 :: utf8Chunks fuel next.2
  | _, _ => []

/-- `from_utf8_lossy`. -/
def utf8Lossy (l : List UInt8) : List Char :=
  (utf8Chunks l.length l).map fun c => c.getD (Char.ofNat 0xFFFD)

/-- `from_utf8`. -/
def utf8Strict (l : List UInt8) : Option (List Char) := (utf8Chunks l.length l).mapM id

/-! ### Encoding -/

/-- A letter, a digit or one of `-`, `_`, `.`, `~`. -/
def isUnreserved (b : UInt8) : Bool :=
  let n := b.toNat
  (48 ≤ n && n ≤ 57) || (65 ≤ n && n ≤ 90) || (97 ≤ n && n ≤ 122) || n = 45 || n = 95 || n = 46 ||
    n = 126

/-- A digit of `{:X}`. -/
def upperHex (n : ℕ) : Char := Char.ofNat (if n < 10 then 48 + n else 55 + n)

def encodeByte (b : UInt8) : List Char :=
  if isUnreserved b then [Char.ofNat b.toNat]
  else ['%', upperHex (b.toNat / 16), upperHex (b.toNat % 16)]

def encode (l : List UInt8) : List Char := l.flatMap encodeByte

theorem toNat_ofNat {n : ℕ} (h : n < 256) : (Char.ofNat n).toNat = n := by
  have hvalid : n.isValidChar := .inl (by omega)
  rw [Char.ofNat, dif_pos hvalid]
  exact BitVec.toNat_ofFin _

theorem toNat_ofNat_byte (b : UInt8) : (Char.ofNat b.toNat).toNat = b.toNat :=
  toNat_ofNat b.toNat_lt

theorem upperHex_injOn {m n : ℕ} (hm : m < 16) (hn : n < 16) (h : upperHex m = upperHex n) :
    m = n := by
  have h' := congrArg Char.toNat h
  unfold upperHex at h'
  rw [toNat_ofNat (by split_ifs <;> omega), toNat_ofNat (by split_ifs <;> omega)] at h'
  split_ifs at h' <;> omega

/-- The texts of two bytes start differently, or the bytes are the same. -/
theorem eq_of_encodeByte {a b : UInt8} {s t : List Char}
    (h : encodeByte a ++ s = encodeByte b ++ t) : a = b ∧ s = t := by
  have hpercent : ∀ c : UInt8, isUnreserved c → Char.ofNat c.toNat ≠ '%' := by
    intro c hc heq
    have hn : c.toNat = 37 := by rw [← toNat_ofNat_byte, heq]; rfl
    simp [isUnreserved, hn] at hc
  have ha := a.toNat_lt
  have hb := b.toNat_lt
  unfold encodeByte at h
  split_ifs at h with h₁ h₂ h₂
  · obtain ⟨hc, hs⟩ := cons.inj h
    refine ⟨UInt8.toNat_inj.1 ?_, hs⟩
    rw [← toNat_ofNat_byte a, hc, toNat_ofNat_byte]
  · exact absurd (cons.inj h).1 (hpercent a h₁)
  · exact absurd (cons.inj h).1.symm (hpercent b h₂)
  · simp only [cons_append, nil_append, cons.injEq, true_and] at h
    obtain ⟨hhi, hlo, hs⟩ := h
    have := upperHex_injOn (by omega) (by omega) hhi
    have := upperHex_injOn (by omega) (by omega) hlo
    exact ⟨UInt8.toNat_inj.1 (by omega), hs⟩

theorem encodeByte_ne_nil (b : UInt8) : encodeByte b ≠ [] := by
  unfold encodeByte
  split_ifs <;> simp

/-- **Encoding loses nothing.** -/
theorem encode_injective : Function.Injective encode := by
  intro l
  induction l with
  | nil =>
    intro m h
    cases m with
    | nil => rfl
    | cons b m => exact absurd (append_eq_nil_iff.1 h.symm).1 (encodeByte_ne_nil b)
  | cons a l ih =>
    intro m h
    cases m with
    | nil => exact absurd (append_eq_nil_iff.1 h).1 (encodeByte_ne_nil a)
    | cons b m =>
      obtain ⟨rfl, hl⟩ := eq_of_encodeByte h
      rw [ih hl]

def isEncodedChar (c : Char) : Bool :=
  c = '%' || isUnreserved (UInt8.ofNat c.toNat)

theorem isEncodedChar_of_mem {l : List UInt8} {c : Char} (h : c ∈ encode l) : isEncodedChar c := by
  obtain ⟨b, -, hc⟩ := mem_flatMap.1 h
  have hhex : ∀ n < 16, isEncodedChar (upperHex n) := by decide
  have hb := b.toNat_lt
  unfold encodeByte at hc
  split_ifs at hc with hu
  · rw [mem_singleton.1 hc, isEncodedChar, toNat_ofNat_byte, UInt8.ofNat_toNat, hu, Bool.or_true]
  · simp only [mem_cons, not_mem_nil, or_false] at hc
    rcases hc with rfl | rfl | rfl
    · rfl
    · exact hhex _ (by omega)
    · exact hhex _ (by omega)

/-- A separator does not occur in an encoded text. -/
theorem not_mem_encode {c : Char} (h : isEncodedChar c = false) (l : List UInt8) :
    c ∉ encode l := by
  intro hc
  rw [isEncodedChar_of_mem hc] at h
  cases h

end Percent
