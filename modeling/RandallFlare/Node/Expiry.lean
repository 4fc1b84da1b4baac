import RandallFlare.Node.Node

/-!
# The expiry of a Worker's key

`kput` of `rf/src/kvbind.rs`, by which a Worker writes a key.  It computes the expiry with
arithmetic that wraps around, but compares it with the clock by a product that does not.

* `kput`: the handler;
* `Honoured`: the value is there for a minute, and until the expiry that was asked for;
* `kput_honoured_iff` is the result.
-/

namespace RandallFlare

open Node Option

/-- What `kput` reads of a request; a namespace header that is no text is as if it was not there. -/
structure KvPut where
  loopback : Bool
  ns : Option String
  key : String
  expirationTtl : Option UInt64
  expiration : Option UInt64
  metadata : Option Bytes
  body : Bytes

/-- An answer that is no success: the store failed, or a status and its text. -/
inductive KvRefusal
  | status (code : ℕ) (text : String)
  | failed (e : NodeError)
  deriving DecidableEq

namespace KvPut

def nsOf (r : KvPut) : Except KvRefusal String :=
  if ¬ r.loopback then .error (.status 403 "loopback only")
  else r.ns.elim (.error (.status 400 "missing kv namespace header")) .ok

/-- The expiry that is stored, in the wrapping arithmetic of a release build. -/
def expiresAtMs (r : KvPut) (now : UInt64) : Option UInt64 :=
  (r.expiration.map (· * 1000)).or (r.expirationTtl.map fun ttl => now + ttl * 1000)

/-- The check of the expiry; the product saturates and the sum wraps around. -/
def TooSoon (r : KvPut) (now : UInt64) : Prop :=
  (∃ ttl ∈ r.expirationTtl, ttl < 60) ∨
    ∃ secs ∈ r.expiration, min (secs.toNat * 1000) (2 ^ 64 - 1) < (now + 60000).toNat

instance (r : KvPut) (now : UInt64) : Decidable (r.TooSoon now) :=
  inferInstanceAs (Decidable (_ ∨ _))

/-- The metadata header, re-encoded by `json` if it is JSON. -/
def readMetadata (json : Bytes → Option Bytes) (r : KvPut) : Except KvRefusal (Option Bytes) :=
  match r.metadata with
  | some value =>
      if 1024 < value.length then .error (.status 400 "KV metadata exceeds 1024 bytes")
      else (json value).elim (.error (.status 400 "KV metadata is not JSON")) (.ok ∘ some)
  | none => .ok none

/-- The expiry that is asked for. -/
def requested (r : KvPut) (now : UInt64) : Option ℕ :=
  (r.expiration.map (·.toNat * 1000)).or (r.expirationTtl.map (now.toNat + ·.toNat * 1000))

end KvPut

open KvPut

variable (x : Crypto) (json : Bytes → Option Bytes) (now : UInt64) (wall : ℕ → ℕ)
  (disk : ℕ → Bool) (n : Node) (r : KvPut)

/-- `kput`; `now` is the reading of the clock it makes, of which there is at most one. -/
def kput : Node × Except KvRefusal Unit :=
  match r.nsOf with
  | .error e => (n, .error e)
  | .ok ns =>
      if r.TooSoon now then
        (n, .error (.status 400 "KV expiration must be at least 60 seconds"))
      else match r.readMetadata json with
        | .error e => (n, .error e)
        | .ok metadata =>
            let out := n.kvPutWithMetadata x wall disk ns r.key (some r.body)
              ((r.expiresAtMs now).map (·.toNat)) metadata
            (out.1, out.2.mapError .failed)

/-- The value written at `now` is there for a minute, and until the expiry that was asked for if the
clock can reach it. -/
def Honoured (n : Node) (ns key : String) (value : Bytes) (now : UInt64) (requested : Option ℕ) :
    Prop :=
  (∀ t : UInt64, now ≤ t → t.toNat < now.toNat + 60000 → n.kvGet ns key t.toNat = some value) ∧
    ∀ ms ∈ requested, ms < 2 ^ 64 → ∀ t : UInt64, n.kvGet ns key t.toNat = none ↔ ms ≤ t.toNat

variable {x json now wall disk n r} {ns : String} {ms : ℕ}

/-- What is stored is what is asked for, modulo `2 ^ 64`. -/
theorem KvPut.expiresAtMs_toNat :
    (r.expiresAtMs now).map (·.toNat) = (r.requested now).map (· % 2 ^ 64) := by
  unfold expiresAtMs requested
  cases r.expiration with
  | some secs => simp [UInt64.toNat_mul]
  | none => simp [Function.comp_def, UInt64.toNat_add, UInt64.toNat_mul]

/-- An expiry that passes the check is a minute away, if nothing wraps around. -/
theorem KvPut.le_of_not_tooSoon (h : ¬ r.TooSoon now) (hms : ms ∈ r.requested now)
    (hlt : ms < 2 ^ 64) (hnow : now.toNat + 60000 < 2 ^ 64) : now.toNat + 60000 ≤ ms := by
  obtain ⟨httl, hexp⟩ := not_or.1 h
  unfold requested at hms
  cases hr : r.expiration with
  | some secs =>
    obtain rfl : secs.toNat * 1000 = ms := by simpa [hr] using hms
    have := not_lt.1 fun hlt => hexp ⟨secs, hr, hlt⟩
    rw [UInt64.toNat_add] at this
    change (now.toNat + 60000) % _ ≤ _ at this
    omega
  | none =>
    obtain ⟨ttl, hr', rfl⟩ : ∃ ttl, r.expirationTtl = some ttl ∧
        now.toNat + ttl.toNat * 1000 = ms := by simpa [hr] using hms
    have : 60 ≤ ttl.toNat := not_lt.1 fun hlt => httl ⟨ttl, hr', hlt⟩
    omega

theorem Node.kvGet_kvPutWithMetadata {key : String} {value metadata : Option Bytes} {exp : Option ℕ}
    (hmeta : kvMetadataNamespace x ns ≠ ns)
    (hok : (n.kvPutWithMetadata x wall disk ns key value exp metadata).2 = .ok ()) (t : ℕ) :
    (n.kvPutWithMetadata x wall disk ns key value exp metadata).1.kvGet ns key t =
      KvEntry.visible ⟨(n.inner.clock.now (wall 0)).last, n.id, value, exp⟩ t := by
  unfold kvPutWithMetadata at hok ⊢
  cases h₀ : disk 0 with
  | false => simp [kvPutEntry, h₀] at hok
  | true =>
    cases h₁ : disk 1 with
    | false => simp [kvPutEntry, h₀, h₁] at hok
    | true =>
      rw [kvGet_eq]
      exact congrArg (bind · (KvEntry.visible · t))
        ((Inner.kvEntry_putKv _ _ _ _ ns key).trans ((if_neg fun h => hmeta h.1.symm).trans
          ((Inner.kvEntry_putKv _ _ _ _ ns key).trans (if_pos ⟨rfl, rfl⟩))))

theorem kvGet_kput (hns : r.ns = some ns) (hmeta : kvMetadataNamespace x ns ≠ ns)
    (hok : (kput x json now wall disk n r).2 = .ok ()) :
    ¬ r.TooSoon now ∧ ∀ t, (kput x json now wall disk n r).1.kvGet ns r.key t =
      if ∃ ms ∈ r.requested now, ms % 2 ^ 64 ≤ t then none else some r.body := by
  unfold kput nsOf at hok ⊢
  rw [hns] at hok ⊢
  by_cases hl : r.loopback
  case neg => simp [hl] at hok
  by_cases hsoon : r.TooSoon now
  case pos => simp [hl, hsoon] at hok
  cases hread : r.readMetadata json with
  | error e => simp [hl, hsoon, hread] at hok
  | ok metadata =>
    refine ⟨hsoon, fun t => ?_⟩
    simp only [hl, hsoon, hread, not_true_eq_false, ↓reduceIte, elim_some,
      expiresAtMs_toNat] at hok ⊢
    rw [kvGet_kvPutWithMetadata hmeta]
    · cases r.requested now with
      | none => simp [KvEntry.visible]
      | some ms =>
        simp only [KvEntry.visible, map_some, filter_some, decide_eq_true_eq, mem_def, some.injEq,
          exists_eq_left', ← not_le, ite_not]
    · cases hout : (n.kvPutWithMetadata x wall disk ns r.key (some r.body)
          ((r.requested now).map (· % 2 ^ 64)) metadata).2 with
      | ok u => rfl
      | error e => rw [hout] at hok; cases hok

/-- **An expiry that is accepted is honoured unless it, or the minute, wraps around.** -/
theorem kput_honoured_iff (hns : r.ns = some ns) (hmeta : kvMetadataNamespace x ns ≠ ns)
    (hok : (kput x json now wall disk n r).2 = .ok ()) :
    Honoured (kput x json now wall disk n r).1 ns r.key r.body now (r.requested now) ↔
      ∀ ms ∈ r.requested now, ms < 2 ^ 64 ∧ now.toNat + 60000 < 2 ^ 64 ∨
        now.toNat + 60000 ≤ ms % 2 ^ 64 := by
  obtain ⟨hsoon, hget⟩ := kvGet_kput hns hmeta hok
  simp only [Honoured, hget]
  cases hr : r.requested now with
  | none => simp
  | some ms =>
    simp only [mem_def, some.injEq, forall_eq', exists_eq_left', ite_eq_left_iff,
      ite_eq_right_iff, reduceCtorEq, imp_false, not_le]
    constructor
    · rintro ⟨hminute, -⟩
      -- the later of the two is in range of the clock
      have hnow := now.toNat_lt
      have hmod := Nat.mod_lt ms (show 0 < 2 ^ 64 by decide)
      obtain ⟨t, ht⟩ : ∃ t : UInt64, t.toNat = max now.toNat (ms % 2 ^ 64) :=
        ⟨.ofNat _, UInt64.toNat_ofNat_of_lt' (max_lt hnow hmod)⟩
      have := hminute t (UInt64.le_iff_toNat_le.2 (ht ▸ le_max_left _ _))
      omega
    · intro h
      have hle : now.toNat + 60000 ≤ ms % 2 ^ 64 := by
        rcases h with ⟨hlt, hnow⟩ | hle
        · rw [Nat.mod_eq_of_lt hlt]
          exact le_of_not_tooSoon hsoon hr hlt hnow
        · exact hle
      refine ⟨fun t _ ht => ht.trans_le hle, fun hlt t => ?_⟩
      rw [Nat.mod_eq_of_lt hlt, not_lt]

/-- A put at the first second, with an expiry. -/
def samplePut (secs : UInt64) : KvPut := ⟨true, some "n", "k", none, some secs, none, [7]⟩

def sampleKput (secs : UInt64) : Node × Except KvRefusal Unit :=
  kput sampleCrypto some 1000 (fun _ => 1000) (fun _ => true) (Node.new ⟨1⟩ sampleOperator)
    (samplePut secs)

theorem kput_honoured_minute :
    Honoured (sampleKput 61).1 "n" "k" [7] 1000 ((samplePut 61).requested 1000) :=
  (kput_honoured_iff (r := samplePut 61) rfl (by decide +kernel) (by decide +kernel)).2
    (by decide +kernel)

/-- `2 ^ 61` seconds pass the check and are stored as `0`. -/
theorem kput_expired_at_once : (sampleKput 0x2000000000000000).2 = .ok () ∧
    ¬ Honoured (sampleKput 0x2000000000000000).1 "n" "k" [7] 1000
      ((samplePut 0x2000000000000000).requested 1000) := by
  refine ⟨by decide +kernel, fun h => ?_⟩
  have hget := h.1 1000 (UInt64.le_refl _) (by decide +kernel)
  revert hget
  decide +kernel

end RandallFlare
