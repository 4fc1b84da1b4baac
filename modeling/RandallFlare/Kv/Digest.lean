import RandallFlare.Kv.Merge

/-!
# The digest of a namespace

`Namespace::digest` of `rf-core/src/kv.rs`: replicas gossip it and fetch the entries of another one
only if it differs from their own.  Keys, timestamps, writers and hashes of values follow each other
with enough structure to be told apart; the hash of a value does not tell a value with an expiry
from a longer value without one.

* `Namespace.digestInput`, `Namespace.digest`;
* `KvEntry.Appended`: a value with an expiry, and the value with the bytes of the expiry at its end;
* `Namespace.tellsApart_iff` is the result.
-/

namespace RandallFlare

open Namespace List Option

open Postcard (utf8)

/-- `to_le_bytes`. -/
abbrev leBytes (n v : ℕ) : Bytes := (beBytes n v).reverse

theorem leBytes_inj {n v w : ℕ} (hv : v < 256 ^ n) (hw : w < 256 ^ n)
    (h : leBytes n v = leBytes n w) : v = w := by
  have hbe := congrArg ofBeBytes (reverse_injective h)
  rwa [ofBeBytes_beBytes, ofBeBytes_beBytes, Nat.mod_eq_of_lt hv, Nat.mod_eq_of_lt hw] at hbe

theorem beBytes_bitVec_inj {v w : BitVec 256} (h : beBytes 32 v.toNat = beBytes 32 w.toNat) :
    v = w := by
  have hbe := congrArg ofBeBytes h
  rw [ofBeBytes_beBytes, ofBeBytes_beBytes] at hbe
  exact BitVec.eq_of_toNat_eq (by
    rwa [Nat.mod_eq_of_lt (by exact v.isLt), Nat.mod_eq_of_lt (by exact w.isLt)] at hbe)

theorem utf8_injective : Function.Injective utf8 := by
  intro s t h
  refine String.toByteArray_inj.1 (ByteArray.ext (Array.toList_inj.1 h))

/-! ### What is hashed -/

namespace KvEntry

/-- The timestamp and the expiry have the widths of the source. -/
structure Fits (e : KvEntry) : Prop where
  wallMs : e.hlc.wallMs < 2 ^ 64
  logical : e.hlc.logical < 2 ^ 32
  expires : ∀ t ∈ e.expiresAtMs, t < 2 ^ 64

/-- `f` has no expiry, but the bytes of that of `e` at the end of its value. -/
def Appended (e f : KvEntry) : Prop :=
  ∃ v t, e.value = some v ∧ e.expiresAtMs = some t ∧ f.value = some (v ++ leBytes 8 t) ∧
    f.expiresAtMs = none

/-- The same timestamp and writer, and the expiry of one as the end of the value of the other. -/
def LooksLike (e f : KvEntry) : Prop :=
  e.hlc = f.hlc ∧ e.writer = f.writer ∧ (e.Appended f ∨ f.Appended e)

end KvEntry

/-- The bytes of a value, with a mark for a tombstone. -/
def valueBytes : Option Bytes → Bytes
  | some v => 1 :: v
  | none => [0]

theorem hashInput_none (v : Option Bytes) : hashInput v none = valueBytes v := by
  cases v <;> simp [hashInput, valueBytes]

theorem hashInput_some (v : Option Bytes) (t : ℕ) :
    hashInput v (some t) = valueBytes v ++ leBytes 8 t := by
  cases v <;> rfl

theorem valueBytes_injective : Function.Injective valueBytes := by
  rintro (_ | v) (_ | w) h
  · rfl
  · exact absurd (cons.inj h).1 (by decide)
  · exact absurd (cons.inj h).1 (by decide)
  · rw [(cons.inj h).2]

/-- A value with an expiry looks like one without if it is longer by the bytes of the expiry. -/
theorem valueBytes_append_eq_iff {v w : Option Bytes} {t : ℕ} :
    valueBytes v ++ leBytes 8 t = valueBytes w ↔ ∃ b, v = some b ∧ w = some (b ++ leBytes 8 t) := by
  constructor
  · intro h
    cases v with
    | none =>
      cases w with
      | none => exact absurd (congrArg length h) (by simp [valueBytes])
      | some b => exact absurd (cons.inj h).1 (by decide)
    | some b =>
      cases w with
      | none => exact absurd (cons.inj h).1 (by decide)
      | some c => exact ⟨b, rfl, congrArg some (cons.inj h).2.symm⟩
  · rintro ⟨b, rfl, rfl⟩
    rfl

/-- **What the hash of a value does not tell apart.** -/
theorem hashInput_eq_iff {e f : KvEntry} (he : e.Fits) (hf : f.Fits) :
    hashInput e.value e.expiresAtMs = hashInput f.value f.expiresAtMs ↔
      (e.value = f.value ∧ e.expiresAtMs = f.expiresAtMs) ∨ e.Appended f ∨ f.Appended e := by
  have hexp := he.expires
  have hexp' := hf.expires
  unfold KvEntry.Appended
  cases ht : e.expiresAtMs with
  | none =>
    cases hu : f.expiresAtMs with
    | none => simp [hashInput_none, valueBytes_injective.eq_iff]
    | some u =>
      rw [hashInput_none, hashInput_some, eq_comm, valueBytes_append_eq_iff]
      simp
  | some t =>
    cases hu : f.expiresAtMs with
    | none =>
      rw [hashInput_none, hashInput_some, valueBytes_append_eq_iff]
      simp
    | some u =>
      constructor
      · intro h
        obtain ⟨hv, htu⟩ := append_inj' h (by simp)
        exact .inl ⟨valueBytes_injective hv,
          congrArg some (leBytes_inj (hexp t ht) (hexp' u hu) htu)⟩
      · simp only [reduceCtorEq, and_false, or_false, exists_const, some.injEq]
        rintro ⟨hv, rfl⟩
        rw [hv]

/-! ### The digest -/

namespace Namespace

variable (x : Crypto)

def entryBytes (p : String × KvEntry) : Bytes :=
  leBytes 8 (utf8 p.1).length ++ (utf8 p.1 ++ (leBytes 8 p.2.hlc.wallMs ++
    (leBytes 4 p.2.hlc.logical ++ (beBytes 32 p.2.writer.key.toNat ++
      beBytes 32 (x.sha256 (hashInput p.2.value p.2.expiresAtMs)).toNat))))

def digestInput (n : Namespace) : Bytes := n.entries.entries.flatMap (entryBytes x)

def digest (n : Namespace) : Digest := x.sha256 (n.digestInput x)

/-- Keys, timestamps and expiries have the widths of the source. -/
def Fits (n : Namespace) : Prop :=
  ∀ p ∈ n.entries.entries, (utf8 p.1).length < 2 ^ 64 ∧ p.2.Fits

/-- Everything of the namespaces that is hashed. -/
def hashed (n m : Namespace) : List Bytes :=
  n.digestInput x :: m.digestInput x ::
    (n.entries.entries ++ m.entries.entries).map fun p => hashInput p.2.value p.2.expiresAtMs

end Namespace

/-- The same key, timestamp and writer, and the same bytes hashed for the value. -/
def Alike (p q : String × KvEntry) : Prop := p.1 = q.1 ∧ p.2.Clashes q.2

variable {x : Crypto}

/-- The bytes of an entry are told apart from what follows them. -/
theorem alike_of_entryBytes {p q : String × KvEntry} {r t : Bytes}
    (hp : (utf8 p.1).length < 2 ^ 64 ∧ p.2.Fits) (hq : (utf8 q.1).length < 2 ^ 64 ∧ q.2.Fits)
    (hsha : x.sha256 (hashInput p.2.value p.2.expiresAtMs) =
        x.sha256 (hashInput q.2.value q.2.expiresAtMs) →
      hashInput p.2.value p.2.expiresAtMs = hashInput q.2.value q.2.expiresAtMs)
    (h : entryBytes x p ++ r = entryBytes x q ++ t) : Alike p q ∧ r = t := by
  simp only [entryBytes, append_assoc] at h
  obtain ⟨hlen, h⟩ := append_inj h (by simp)
  obtain ⟨hkey, h⟩ := append_inj h (leBytes_inj hp.1 hq.1 hlen)
  obtain ⟨hwall, h⟩ := append_inj h (by simp)
  obtain ⟨hlogical, h⟩ := append_inj h (by simp)
  obtain ⟨hwriter, h⟩ := append_inj h (by simp)
  obtain ⟨hhash, h⟩ := append_inj h (by simp)
  refine ⟨⟨utf8_injective hkey, ?_, ?_, hsha (beBytes_bitVec_inj hhash)⟩, h⟩
  · exact Hlc.ext (leBytes_inj hp.2.wallMs hq.2.wallMs hwall)
      (leBytes_inj hp.2.logical hq.2.logical hlogical)
  · have hkeys := beBytes_bitVec_inj hwriter
    generalize p.2.writer = v, q.2.writer = w at hkeys
    obtain ⟨v⟩ := v
    obtain ⟨w⟩ := w
    exact congrArg PublicId.mk hkeys

theorem entryBytes_ne_nil (p : String × KvEntry) (r : Bytes) : entryBytes x p ++ r ≠ [] := by
  intro h
  have := congrArg length h
  simp [entryBytes] at this

/-- Lists of entries with the same bytes have the same entries, up to the hash of the values. -/
theorem forall₂_alike_of_flatMap {l l' : List (String × KvEntry)}
    (hl : ∀ p ∈ l, (utf8 p.1).length < 2 ^ 64 ∧ p.2.Fits)
    (hl' : ∀ p ∈ l', (utf8 p.1).length < 2 ^ 64 ∧ p.2.Fits)
    (hsha : ∀ p ∈ l, ∀ q ∈ l', x.sha256 (hashInput p.2.value p.2.expiresAtMs) =
        x.sha256 (hashInput q.2.value q.2.expiresAtMs) →
      hashInput p.2.value p.2.expiresAtMs = hashInput q.2.value q.2.expiresAtMs)
    (h : l.flatMap (entryBytes x) = l'.flatMap (entryBytes x)) : Forall₂ Alike l l' := by
  induction l generalizing l' with
  | nil =>
    cases l' with
    | nil => exact .nil
    | cons q l' => exact absurd h.symm (entryBytes_ne_nil q _)
  | cons p l ih =>
    cases l' with
    | nil => exact absurd h (entryBytes_ne_nil p _)
    | cons q l' =>
      obtain ⟨halike, hrest⟩ := alike_of_entryBytes (hl p mem_cons_self)
        (hl' q mem_cons_self) (hsha p mem_cons_self q mem_cons_self) h
      refine .cons halike (ih (fun r hr => hl r (mem_cons_of_mem p hr))
        (fun r hr => hl' r (mem_cons_of_mem q hr)) (fun r hr t ht =>
          hsha r (mem_cons_of_mem p hr) t (mem_cons_of_mem q ht)) hrest)

namespace Namespace

variable {n m : Namespace}

/-- **Namespaces with the same digest are the same up to the hash of the values.** -/
theorem digest_eq_iff (hn : n.Fits) (hm : m.Fits) (hsha : x.CollisionFree (hashed x n m)) :
    n.digest x = m.digest x ↔ Forall₂ Alike n.entries.entries m.entries.entries := by
  constructor
  · intro h
    refine forall₂_alike_of_flatMap hn hm (fun p hp q hq => hsha _ ?_ _ ?_)
      (hsha _ mem_cons_self _ (mem_cons_of_mem _ mem_cons_self) h)
    · exact mem_cons_of_mem _ (mem_cons_of_mem _
        (mem_map.2 ⟨p, mem_append_left _ hp, rfl⟩))
    · exact mem_cons_of_mem _ (mem_cons_of_mem _
        (mem_map.2 ⟨q, mem_append_right _ hq, rfl⟩))
  · intro h
    have hbytes : n.digestInput x = m.digestInput x := by
      unfold digestInput
      generalize n.entries.entries = l, m.entries.entries = l' at h
      induction h with
      | nil => rfl
      | cons halike _ ih =>
        obtain ⟨hkey, hhlc, hwriter, hhash⟩ := halike
        rw [flatMap_cons, flatMap_cons, ih, entryBytes, entryBytes, hkey, hhlc, hwriter, hhash]
    rw [digest, digest, hbytes]

/-- Alike entries are the same, or look like each other. -/
theorem rel_clashes_iff {o p : Option KvEntry} (ho : ∀ e ∈ o, e.Fits) (hp : ∀ f ∈ p, f.Fits) :
    Rel KvEntry.Clashes o p ↔ o = p ∨ ∃ e f, o = some e ∧ p = some f ∧ e.LooksLike f := by
  cases o with
  | none =>
    cases p with
    | none => simp [rel_none_none]
    | some f => simp
  | some e =>
    cases p with
    | none => simp
    | some f =>
      have hinput := hashInput_eq_iff (ho e rfl) (hp f rfl)
      have heq : e = f ↔ e.hlc = f.hlc ∧ e.writer = f.writer ∧ e.value = f.value ∧
          e.expiresAtMs = f.expiresAtMs := by
        obtain ⟨_, _, _, _⟩ := e
        obtain ⟨_, _, _, _⟩ := f
        simp [and_comm]
      rw [rel_some_some, KvEntry.Clashes, hinput]
      simp only [some.injEq, exists_eq_left', exists_and_left, heq, KvEntry.LooksLike]
      tauto

theorem fits_entry (hn : n.Fits) {key : String} : ∀ e ∈ n.entry key, e.Fits := fun e he =>
  (hn (key, e) (mem_dump.2 he)).2

/-- **Two namespaces have the same digest if and only if they hold the same entries, unless they
differ in nothing but expiries that stand at the end of a value.** -/
theorem tellsApart_iff (hn : n.Fits) (hm : m.Fits) (hsha : x.CollisionFree (hashed x n m)) :
    (n.digest x = m.digest x ↔ ∀ key, n.entry key = m.entry key) ↔
      ((∃ key, n.entry key ≠ m.entry key) → ∃ key, n.entry key ≠ m.entry key ∧
        ¬ ∃ e f, n.entry key = some e ∧ m.entry key = some f ∧ e.LooksLike f) := by
  have hdigest : n.digest x = m.digest x ↔ ∀ key, n.entry key = m.entry key ∨
      ∃ e f, n.entry key = some e ∧ m.entry key = some f ∧ e.LooksLike f := by
    rw [digest_eq_iff hn hm hsha]
    exact (SortedMap.forall₂_entries_iff n.entries m.entries).trans
      (forall_congr' fun key => rel_clashes_iff (fits_entry hn) (fits_entry hm))
  rw [hdigest]
  constructor
  · rintro h ⟨key, hkey⟩
    by_contra hall
    refine hkey (h.1 (fun k => or_iff_not_imp_left.2 fun hk => ?_) key)
    by_contra hlooks
    exact hall ⟨k, hk, hlooks⟩
  · intro h
    refine ⟨fun hall => ?_, fun hall key => .inl (hall key)⟩
    by_contra hne
    obtain ⟨key, hkey, hlooks⟩ := h (not_forall.1 hne)
    exact (hall key).elim hkey hlooks

/-- A namespace with one entry. -/
def single (value : Bytes) (expiresAtMs : Option ℕ) : Namespace :=
  ⟨SortedMap.empty.insert "k" ⟨⟨5, 0⟩, ⟨1⟩, some value, expiresAtMs⟩⟩

/-- Two values without an expiry have different digests. -/
theorem tellsApart_values :
    (single [118] none).digest sampleCrypto = (single [119] none).digest sampleCrypto ↔
      ∀ key, (single [118] none).entry key = (single [119] none).entry key := by
  have hfits : ∀ v : Bytes, (single v none).Fits := by
    intro v p hp
    obtain rfl : p = ("k", ⟨⟨5, 0⟩, ⟨1⟩, some v, none⟩) := mem_singleton.1 hp
    have hkey : (utf8 "k").length < 2 ^ 64 := by decide
    exact ⟨hkey, show 5 < 2 ^ 64 by decide, show 0 < 2 ^ 32 by decide, fun t ht => nomatch ht⟩
  refine (tellsApart_iff (hfits [118]) (hfits [119]) ?_).2 fun _ => ⟨"k", by decide, ?_⟩
  · decide +kernel
  · rintro ⟨e, f, he, hf, -, -, hlooks⟩
    obtain rfl : ⟨⟨5, 0⟩, ⟨1⟩, some [118], none⟩ = e := some.inj he
    obtain rfl : ⟨⟨5, 0⟩, ⟨1⟩, some [119], none⟩ = f := some.inj hf
    rcases hlooks with ⟨v, t, -, ht, -⟩ | ⟨v, t, -, ht, -⟩ <;> exact nomatch ht

/-- A value that expired at 0, and the value with eight zero bytes more that never expires, have the
same digest. -/
theorem digest_single_appended : ¬ ((single [118] (some 0)).digest sampleCrypto =
        (single [118, 0, 0, 0, 0, 0, 0, 0, 0] none).digest sampleCrypto ↔
      ∀ key, (single [118] (some 0)).entry key =
        (single [118, 0, 0, 0, 0, 0, 0, 0, 0] none).entry key) := by
  intro h
  exact absurd (h.1 (by decide +kernel) "k") (by decide)

end Namespace

end RandallFlare
