import RandallFlare.Kv.Hlc
import RandallFlare.Lib.Fallible
import RandallFlare.Lib.Latest
import RandallFlare.Lib.SortedMap
import RandallFlare.Signed.Envelope
import Mathlib.Data.List.MinMax

/-!
# The claim engine

A translation of `rf-core/src/claim.rs`.  A claim says that a node holds a task, since when, and
when it was last renewed.  A node keeps for every task and holder the record that ranks highest by
acquisition and renewal, and the holder of a task is whoever acquired it first among those whose
record is live.

* `ClaimSet.ingest`, `winner`, `mine`, `gc`, `liveEnvelopes`.
-/

namespace RandallFlare

open Postcard SortedMap List Envelope

open Postcard (Decoder)

/-- The byte-wise order of the keys. -/
instance : LinearOrder PublicId :=
  LinearOrder.lift' (fun p => p.key.toNat) PublicId.toNat_key_injective

def saturatingAdd (a b : ℕ) : ℕ := min (a + b) (UInt64.size - 1)

/-- The slack for clock skew in liveness checks. -/
def skewSlackMs : ℕ := 15000

structure Claim where
  task : String
  holder : PublicId
  acquired : Hlc
  renewed : Hlc
  ttlMs : ℕ
  released : Bool
  deriving DecidableEq

namespace Claim

def expiresAtMs (c : Claim) : ℕ := saturatingAdd c.renewed.wallMs c.ttlMs

def live (c : Claim) (nowMs : ℕ) : Bool :=
  !c.released && nowMs < saturatingAdd c.expiresAtMs skewSlackMs

/-- The claim `make_claim` signs. -/
def make (holder : PublicId) (task : String) (now : Hlc) (ttlMs : ℕ) : Claim :=
  ⟨task, holder, now, now, ttlMs, false⟩

/-- The claim `renew` signs: a renewal, or a release. -/
def renew (prior : Claim) (renewed : Hlc) (released : Bool) : Claim :=
  { prior with renewed, released }

/-- The order of the claims of one holder on a task: acquisition, then renewal. -/
def rank (c : Claim) : Hlc ×ₗ Hlc := toLex (c.acquired, c.renewed)

def hlcDecoder : Decoder Hlc := do
  let wallMs ← u64
  let logical ← u32
  pure ⟨wallMs, logical⟩

def decoder : Decoder Claim := do
  let task ← str
  let holder ← publicIdDecoder
  let acquired ← hlcDecoder
  let renewed ← hlcDecoder
  let ttlMs ← u64
  let released ← bool
  pure ⟨task, holder, acquired, renewed, ttlMs, released⟩

def putHlc (t : Hlc) : Bytes := putU64 t.wallMs ++ putVarint 5 t.logical

def encode (c : Claim) : Bytes :=
  putStr c.task ++ (putU64 32 ++ beBytes 32 c.holder.key.toNat) ++
    putHlc c.acquired ++ putHlc c.renewed ++ putU64 c.ttlMs ++ putBool c.released

end Claim

/-- A claim whose signature has been verified. -/
structure ClaimRecord where
  claim : Claim
  digest : Digest
  envelope : Envelope
  deriving DecidableEq

/-- What ingesting brought. -/
inductive Ingest
  /-- New information: persist and gossip again. -/
  | changed
  /-- Already known, or older than what is known. -/
  | stale
  deriving DecidableEq

/-- Why a claim is rejected. -/
inductive ClaimError
  | envelope (e : EnvelopeError)
  | holderMismatch
  | renewedBeforeAcquired
  | acquiredMoved
  | zeroTtl
  deriving DecidableEq

namespace ClaimRecord

def live (nowMs : ℕ) (r : ClaimRecord) : Bool := r.claim.live nowMs

def rank (r : ClaimRecord) : Hlc ×ₗ Hlc := r.claim.rank

/-- The order of the holders of a task: the earliest acquisition, then the lowest digest. -/
def precedence (r : ClaimRecord) : Hlc ×ₗ ℕ := toLex (r.claim.acquired, r.digest.toNat)

/-- A record against the one held for its task and holder. -/
def offered (r : ClaimRecord) : Option ClaimRecord → Except ClaimError Ingest
  | none => .ok .changed
  | some existing =>
      if existing.digest = r.digest then .ok .stale
      else if r.claim.acquired = existing.claim.acquired then
        if r.claim.renewed ≤ existing.claim.renewed then .ok .stale else .ok .changed
      else if existing.claim.acquired < r.claim.acquired then .ok .changed
      else .error .acquiredMoved

end ClaimRecord

/-- Open the envelope of a claim and check it. -/
def readClaim (x : Crypto) (env : Envelope) : Except ClaimError ClaimRecord :=
  match env.openPayload x Claim.decoder none with
  | .error e => .error (.envelope e)
  | .ok c =>
      if SignerId.ed c.holder ≠ env.signer then .error .holderMismatch
      else if c.renewed < c.acquired then .error .renewedBeforeAcquired
      else if c.ttlMs = 0 then .error .zeroTtl
      else .ok ⟨c, env.digest x, env⟩

/-- The claims a node knows of. -/
structure ClaimSet where
  tasks : SortedMap String (SortedMap PublicId ClaimRecord)
  deriving DecidableEq

namespace ClaimSet

def new : ClaimSet := ⟨empty⟩

/-- The record of a holder on a task, live or not. -/
def mine (s : ClaimSet) (task : String) (me : PublicId) : Option ClaimRecord :=
  match s.tasks.get task with
  | some perTask => perTask.get me
  | none => none

/-- Store a record for its task and holder. -/
def store (s : ClaimSet) (r : ClaimRecord) : ClaimSet :=
  ⟨s.tasks.insert r.claim.task
    (((s.tasks.get r.claim.task).getD empty).insert r.claim.holder r)⟩

/-- Verify an envelope and fold its claim in. -/
def ingest (x : Crypto) (s : ClaimSet) (env : Envelope) :
    ClaimSet × Except ClaimError Ingest :=
  match readClaim x env with
  | .error e => (s, .error e)
  | .ok r => match r.offered (s.mine r.claim.task r.claim.holder) with
      | .ok .changed => (s.store r, .ok .changed)
      | answer => (s, answer)

def ingestAll (x : Crypto) (s : ClaimSet) (envs : List Envelope) : ClaimSet :=
  envs.foldl (fun s env => (s.ingest x env).1) s

def perTask (s : ClaimSet) (task : String) : List ClaimRecord :=
  match s.tasks.get task with
  | some m => m.values
  | none => []

/-- The record that holds a task, if there is a live one. -/
def winner (s : ClaimSet) (task : String) (nowMs : ℕ) : Option ClaimRecord :=
  ((s.perTask task).filter (·.live nowMs)).argmin ClaimRecord.precedence

/-- Drop the records that were released or have been dead for longer than the horizon, and the tasks
that are left without any. -/
def gc (s : ClaimSet) (nowMs horizonMs : ℕ) : ClaimSet :=
  ⟨(s.tasks.mapValues fun m => m.filter fun _ r => !r.claim.released &&
      nowMs < saturatingAdd (saturatingAdd r.claim.expiresAtMs skewSlackMs) horizonMs).filter
    fun _ m => !m.entries.isEmpty⟩

/-- The envelopes of the live records, for anti-entropy. -/
def liveEnvelopes (s : ClaimSet) (nowMs : ℕ) : List Envelope :=
  ((s.tasks.values.flatMap values).filter (·.live nowMs)).map (·.envelope)

end ClaimSet

variable {x : Crypto} {S : List Envelope}

/-! ### Reading a claim -/

variable {env : Envelope} {r q : ClaimRecord} {task : String}

theorem readClaim_eq_ok (h : readClaim x env = .ok r) :
    env.signer = .ed r.claim.holder ∧ env.sig.length = 64 ∧
      (∃ rest, Claim.decoder env.payload = some (r.claim, rest)) ∧
      r.digest = env.digest x ∧ r.envelope = env := by
  unfold readClaim at h
  split at h
  · cases h
  · rename_i c hopen
    split_ifs at h with hholder
    cases h
    obtain ⟨-, hverify, hdec⟩ := openPayload_eq_ok.1 hopen
    have hlen := SignerId.length_of_verify hverify
    have hsigner : SignerId.ed c.holder = env.signer := not_not.1 hholder
    rw [← hsigner] at hlen
    exact ⟨hsigner.symm, hlen, hdec, rfl, rfl⟩

theorem openPayload_of_readClaim
    (h : readClaim x env = .ok r) : env.openPayload x Claim.decoder none = .ok r.claim := by
  unfold readClaim at h
  split at h
  · cases h
  · rename_i c hopen
    split_ifs at h
    rw [hopen, ← Except.ok.inj h]

theorem readClaim_injOn_digest (hsha : x.CollisionFree (S.map digestInput))
    {e f : Envelope} (he : e ∈ S) (hf : f ∈ S) (hr : readClaim x e = .ok r)
    (hq : readClaim x f = .ok q) (h : r.digest = q.digest) : r = q := by
  obtain ⟨hsigner, hlen, ⟨rest, hdec⟩, hdigest, -⟩ := readClaim_eq_ok hr
  obtain ⟨hsigner', hlen', ⟨rest', hdec'⟩, hdigest', -⟩ := readClaim_eq_ok hq
  have hinput : e.digestInput = f.digestInput :=
    hsha _ (mem_map_of_mem he) _ (mem_map_of_mem hf)
      ((hdigest.symm.trans h).trans hdigest')
  -- The same payload is the same claim, so the same holder has signed it.
  have hpayload : e.payload = f.payload :=
    payload_eq_of_digestInput hsigner hsigner' (hlen.trans hlen'.symm) hinput
  rw [hpayload, hdec'] at hdec
  have hclaim : q.claim = r.claim := congrArg Prod.fst (Option.some.inj hdec)
  obtain rfl : e = f := eq_of_digestInput (by rw [hsigner, hsigner', hclaim])
    (hlen.trans hlen'.symm) hinput
  exact Except.ok.inj (hr.symm.trans hq)

/-- The records of a holder on a task among the envelopes. -/
def claimsOf (x : Crypto) (envs : List Envelope) (task : String) (holder : PublicId) :
    List ClaimRecord :=
  (envs.filterMap fun e => (readClaim x e).toOption).filter
    fun r => r.claim.task = task ∧ r.claim.holder = holder

theorem mem_claimsOf {holder : PublicId} : r ∈ claimsOf x S task holder ↔
      ∃ e ∈ S, readClaim x e = .ok r ∧ r.claim.task = task ∧ r.claim.holder = holder := by
  simp only [claimsOf, mem_filter, mem_filterMap, Fallible.toOption_eq_some, decide_eq_true_eq,
    ← exists_and_right, and_assoc]

/-! ### Registers -/

/-- Against a record of another digest, the one that ranks higher is kept. -/
theorem ClaimRecord.offered_eq_changed (h : q.digest = r.digest → q = r) :
    r.offered (some q) = .ok .changed ↔ q.rank < r.rank := by
  have hrank : q.rank < r.rank ↔ q.claim.acquired < r.claim.acquired ∨
      q.claim.acquired = r.claim.acquired ∧ q.claim.renewed < r.claim.renewed :=
    Prod.Lex.toLex_lt_toLex
  rw [hrank]
  unfold offered
  dsimp only
  by_cases hdigest : q.digest = r.digest
  · rw [if_pos hdigest, h hdigest]
    simp
  · rw [if_neg hdigest]
    rcases lt_trichotomy q.claim.acquired r.claim.acquired with hlt | heq | hgt
    · rw [if_neg hlt.ne', if_pos hlt]
      simp [hlt]
    · rw [if_pos heq.symm]
      split_ifs with hle
      · simp [heq, hle]
      · simp [heq, not_le.1 hle]
    · rw [if_neg hgt.ne, if_neg hgt.asymm]
      simp [hgt.asymm, hgt.ne']

namespace ClaimSet

variable {s : ClaimSet} {task : String} {me : PublicId} {r : ClaimRecord}

theorem mine_store (s : ClaimSet) (r : ClaimRecord) (task : String) (me : PublicId) :
    (s.store r).mine task me =
      if r.claim.task = task ∧ r.claim.holder = me then some r else s.mine task me := by
  unfold mine store
  simp only [get_insert]
  by_cases htask : task = r.claim.task
  · subst htask
    simp only [↓reduceIte, get_insert, true_and, eq_comm (a := me)]
    split_ifs with hme
    · rfl
    · cases s.tasks.get r.claim.task with
      | none => rfl
      | some m => rfl
  · simp only [htask, ↓reduceIte, Ne.symm htask, false_and]

theorem mine_gc (s : ClaimSet) (nowMs horizonMs : ℕ) (task : String) (me : PublicId) :
    (s.gc nowMs horizonMs).mine task me = (s.mine task me).filter fun r => !r.claim.released &&
      nowMs < saturatingAdd (saturatingAdd r.claim.expiresAtMs skewSlackMs) horizonMs := by
  unfold mine gc
  rw [get_filter, get_mapValues]
  cases s.tasks.get task with
  | none => rfl
  | some m =>
    dsimp only [Option.map_some]
    rw [← get_filter m fun _ r => !r.claim.released &&
      nowMs < saturatingAdd (saturatingAdd r.claim.expiresAtMs skewSlackMs) horizonMs]
    generalize m.filter _ = kept
    -- A task without records is dropped.
    cases hempty : kept.entries with
    | nil => simp [Option.filter, SortedMap.get, hempty]
    | cons q l => simp [Option.filter, hempty]

/-- Every record of the set was read from one of the envelopes, and is where it belongs. -/
def Known (x : Crypto) (S : List Envelope) (s : ClaimSet) : Prop :=
  ∀ task me r, s.mine task me = some r → r ∈ claimsOf x S task me

theorem known_new : Known x S new := by
  intro task me r hr
  cases hr

variable {env : Envelope} {l : List Envelope} {nowMs : ℕ}

theorem ingest_cases (x : Crypto) (s : ClaimSet) (env : Envelope) :
    (∃ r, readClaim x env = .ok r ∧ s.ingest x env = (s.store r, .ok .changed)) ∨
      (s.ingest x env).1 = s ∧ (s.ingest x env).2 ≠ .ok .changed := by
  unfold ingest
  cases hread : readClaim x env with
  | error e => exact .inr ⟨rfl, by simp⟩
  | ok r =>
    dsimp only
    split
    · exact .inl ⟨r, rfl, rfl⟩
    · rename_i hne
      exact .inr ⟨rfl, hne⟩

theorem ingest_of_error {e : ClaimError} (h : readClaim x env = .error e) :
    s.ingest x env = (s, .error e) := by
  unfold ingest
  rw [h]

section

variable (hsha : x.CollisionFree (S.map digestInput)) (hs : s.Known x S)

include hsha hs

/-- **For a task and a holder, ingesting a claim is offering it to a register.** -/
theorem mine_ingest (henv : env ∈ S) (hread : readClaim x env = .ok r) :
    (s.ingest x env).1.mine task me = if r.claim.task = task ∧ r.claim.holder = me then
        Latest.keep ClaimRecord.rank (s.mine task me) r else s.mine task me := by
  have hanswer : (s.ingest x env).1 =
      if r.offered (s.mine r.claim.task r.claim.holder) = .ok .changed then s.store r else s := by
    unfold ingest
    rw [hread]
    dsimp only
    split
    · rename_i hchanged
      rw [if_pos hchanged]
    · rename_i answer hne
      rw [if_neg hne]
  rw [hanswer]
  by_cases hkey : r.claim.task = task ∧ r.claim.holder = me
  · obtain ⟨rfl, rfl⟩ := hkey
    conv_rhs => rw [if_pos ⟨rfl, rfl⟩]
    cases hheld : s.mine r.claim.task r.claim.holder with
    | none => simp [ClaimRecord.offered, Latest.keep, mine_store]
    | some q =>
      obtain ⟨f, hf, hfread, -⟩ := mem_claimsOf.1 (hs _ _ _ hheld)
      have hchanged := ClaimRecord.offered_eq_changed
        (readClaim_injOn_digest hsha hf henv hfread hread)
      by_cases hlt : q.rank < r.rank
      · rw [if_pos (hchanged.2 hlt), mine_store, if_pos ⟨rfl, rfl⟩]
        exact (if_pos hlt).symm
      · rw [if_neg (mt hchanged.1 hlt), hheld]
        exact (if_neg hlt).symm
  · split_ifs
    · rw [mine_store, if_neg hkey]
    · rfl

theorem Known.ingest (henv : env ∈ S) : (s.ingest x env).1.Known x S := by
  intro task me q hq
  cases hread : readClaim x env with
  | error e =>
    rw [ingest_of_error hread] at hq
    exact hs task me q hq
  | ok r =>
    rw [mine_ingest hsha hs henv hread] at hq
    split_ifs at hq with hkey
    · rcases Latest.keep_cases ClaimRecord.rank (s.mine task me) r with hkeep | hkeep
      · rw [hkeep] at hq
        exact hs task me q hq
      · rw [hkeep] at hq
        cases hq
        exact mem_claimsOf.2 ⟨env, henv, hread, hkey⟩
    · exact hs task me q hq

theorem Known.ingestAll (hl : ∀ e ∈ l, e ∈ S) : (s.ingestAll x l).Known x S := by
  induction l generalizing s with
  | nil => exact hs
  | cons env l ih =>
    exact ih (hs.ingest hsha (hl env mem_cons_self))
      fun e he => hl e (mem_cons_of_mem env he)

theorem mine_ingestAll (hl : ∀ e ∈ l, e ∈ S) (task : String) (me : PublicId) :
    (s.ingestAll x l).mine task me =
      (claimsOf x l task me).foldl (Latest.keep ClaimRecord.rank) (s.mine task me) := by
  induction l generalizing s with
  | nil => rfl
  | cons env l ih =>
    have henv := hl env mem_cons_self
    show ((s.ingest x env).1.ingestAll x l).mine task me = _
    rw [ih (hs.ingest hsha henv) fun e he => hl e (mem_cons_of_mem env he)]
    cases hread : readClaim x env with
    | error e =>
      rw [ingest_of_error hread]
      simp [claimsOf, hread, Except.toOption]
    | ok r =>
      rw [mine_ingest hsha hs henv hread]
      split_ifs with hkey
      · simp [claimsOf, hread, Except.toOption, hkey]
      · simp [claimsOf, hread, Except.toOption, hkey]

end

/-! ### The holder of a task -/

theorem mem_perTask (s : ClaimSet) (task : String) {r : ClaimRecord} :
    r ∈ s.perTask task ↔ ∃ me, s.mine task me = some r := by
  unfold perTask mine
  cases s.tasks.get task with
  | none => simp
  | some m => exact m.mem_values

theorem mem_liveEnvelopes (s : ClaimSet) : env ∈ s.liveEnvelopes nowMs ↔
      ∃ task me r, s.mine task me = some r ∧ r.live nowMs ∧ r.envelope = env := by
  unfold liveEnvelopes mine
  simp only [mem_map, mem_filter, mem_flatMap, mem_values]
  constructor
  · rintro ⟨r, ⟨⟨m, ⟨task, hm⟩, me, hr⟩, hlive⟩, rfl⟩
    exact ⟨task, me, r, by rw [hm]; exact hr, hlive, rfl⟩
  · rintro ⟨task, me, r, hr, hlive, rfl⟩
    split at hr
    · rename_i m hm
      exact ⟨r, ⟨⟨m, ⟨task, hm⟩, me, hr⟩, hlive⟩, rfl⟩
    · cases hr

/-- The holder of a task has the one live record that precedes all others, in whatever order they are
looked at. -/
theorem winner_eq_some (hsha : x.CollisionFree (S.map digestInput)) (hs : s.Known x S) :
    s.winner task nowMs = some r ↔ (∃ me, s.mine task me = some r) ∧ r.live nowMs ∧
      ∀ me q, s.mine task me = some q → q.live nowMs → r.precedence ≤ q.precedence := by
  have hmem : ∀ {q}, q ∈ (s.perTask task).filter (·.live nowMs) ↔
      (∃ me, s.mine task me = some q) ∧ q.live nowMs := fun {q} => by
    rw [mem_filter, mem_perTask]
  constructor
  · intro h
    obtain ⟨hr, hlive⟩ := hmem.1 (argmin_mem h)
    exact ⟨hr, hlive, fun me q hq hqlive => le_of_mem_argmin (hmem.2 ⟨⟨me, hq⟩, hqlive⟩) h⟩
  · rintro ⟨⟨me, hr⟩, hlive, hleast⟩
    refine mem_argmin_iff.2 ⟨hmem.2 ⟨⟨me, hr⟩, hlive⟩, fun q hq => ?_, fun q hq hle => ?_⟩
    · obtain ⟨⟨me', hq'⟩, hqlive⟩ := hmem.1 hq
      exact hleast me' q hq' hqlive
    · -- Another record of the same precedence has the same digest.
      obtain ⟨⟨me', hq'⟩, hqlive⟩ := hmem.1 hq
      have hprec := le_antisymm hle (hleast me' q hq' hqlive)
      obtain ⟨e, he, hread, -⟩ := mem_claimsOf.1 (hs _ _ _ hr)
      obtain ⟨f, hf, hfread, -⟩ := mem_claimsOf.1 (hs _ _ _ hq')
      have hdigest := BitVec.toNat_inj.1 (Prod.mk.inj (toLex.injective hprec)).2
      rw [readClaim_injOn_digest hsha hf he hfread hread hdigest]

theorem winner_congr {s s' : ClaimSet}
    (h : ∀ me, (s.mine task me).filter (·.live nowMs) = (s'.mine task me).filter (·.live nowMs)) :
    s.winner task nowMs = s'.winner task nowMs := by
  have hlive : ∀ s : ClaimSet, (s.perTask task).filter (·.live nowMs) =
      (((s.tasks.get task).getD empty).filter fun _ r => r.live nowMs).values := by
    intro s
    rw [values_filter]
    unfold perTask
    cases s.tasks.get task with
    | none => rfl
    | some m => rfl
  have hmine : ∀ (s : ClaimSet) me,
      ((s.tasks.get task).getD empty).get me = s.mine task me := by
    intro s me
    unfold mine
    cases s.tasks.get task with
    | none => rfl
    | some m => rfl
  unfold winner
  rw [hlive, hlive]
  congr 2
  refine ext_get fun me => ?_
  rw [get_filter, get_filter, hmine, hmine]
  exact h me

end ClaimSet

end RandallFlare
