import RandallFlare.Signed.Manifest

/-!
# The set of deployed workers

`ManifestSet` of `rf-core/src/manifest.rs`, and the offline check of a worker's history.  A set keeps
one record per worker name.  A record replaces another if its version is higher, or the same and its
digest lower; a direct successor must link the record it replaces.

* `readManifest` is what an envelope has to pass, whatever the set holds;
* `verifyChain` is `verify_chain`.
-/

namespace RandallFlare

open SortedMap

structure ManifestRecord where
  manifest : WorkerManifest
  digest : Digest
  envelope : Envelope
  deriving DecidableEq

inductive ManifestIngest
  | changed
  | stale
  deriving DecidableEq

/-- Open an envelope of the operator. -/
def openManifest (x : Crypto) (operator : SignerId) (env : Envelope) :
    Except ManifestError WorkerManifest :=
  match env.openPayload x WorkerManifest.decoder (some operator) with
  | .ok m => .ok m
  | .error .badSignature => .error .notOperator
  | .error .decode => .error (.envelope .decode)

/-- Open an envelope of the operator and validate the manifest. -/
def readManifest (x : Crypto) (operator : SignerId) (env : Envelope) :
    Except ManifestError ManifestRecord :=
  match openManifest x operator env with
  | .error e => .error e
  | .ok m => match m.validate with
      | .error e => .error e
      | .ok () => .ok ⟨m, env.digest x, env⟩

namespace ManifestRecord

/-- The record has a higher version, or the same and a lower digest. -/
def newer (r held : ManifestRecord) : Bool :=
  held.manifest.version < r.manifest.version ||
    (r.manifest.version == held.manifest.version && r.digest < held.digest)

/-- The record is the next version but does not link the one held. -/
def breaksChain (r held : ManifestRecord) : Bool :=
  r.manifest.version == held.manifest.version + 1 && r.manifest.prev ≠ some held.digest

end ManifestRecord

/-- The record of a name after another one is offered, and the answer. -/
def offer (held : Option ManifestRecord) (r : ManifestRecord) :
    Option ManifestRecord × Except ManifestError ManifestIngest :=
  match held with
  | none => (some r, .ok .changed)
  | some h =>
      if ¬ r.newer h then (some h, .ok .stale)
      else if r.breaksChain h then (some h, .error .chainBroken)
      else (some r, .ok .changed)

/-- All deployed workers, and who may deploy. -/
structure ManifestSet where
  operator : SignerId
  workers : SortedMap String ManifestRecord

namespace ManifestSet

def new (operator : SignerId) : ManifestSet := ⟨operator, empty⟩

def get (s : ManifestSet) (name : String) : Option ManifestRecord := s.workers.get name

def ingest (x : Crypto) (s : ManifestSet) (env : Envelope) :
    ManifestSet × Except ManifestError ManifestIngest :=
  match readManifest x s.operator env with
  | .error e => (s, .error e)
  | .ok r => match offer (s.get r.manifest.name) r with
      | (_, .ok .changed) => (⟨s.operator, s.workers.insert r.manifest.name r⟩, .ok .changed)
      | (_, answer) => (s, answer)

/-- Ingest one envelope after the other. -/
def ingestAll (x : Crypto) (s : ManifestSet) (envs : List Envelope) : ManifestSet :=
  envs.foldl (fun s env => (s.ingest x env).1) s

/-- The digest that anti-entropy compares: name, version and digest of every record. -/
def digest (x : Crypto) (s : ManifestSet) : Digest :=
  x.sha256 (s.workers.entries.flatMap fun p =>
    Postcard.utf8 p.1 ++ (beBytes 8 p.2.manifest.version).reverse ++ beBytes 32 p.2.digest.toNat)

end ManifestSet

/-! ### What ingesting does -/

variable {x : Crypto} {operator : SignerId} {env : Envelope} {m : WorkerManifest}

/-- An envelope that reads opens for the operator, to a valid manifest. -/
theorem readManifest_eq_ok {r : ManifestRecord} (h : readManifest x operator env = .ok r) :
    openManifest x operator env = .ok r.manifest ∧ r.manifest.validate = .ok () ∧
      r.digest = env.digest x ∧ r.envelope = env := by
  unfold readManifest at h
  split at h
  · cases h
  · rename_i m hopen
    split at h
    · cases h
    · rename_i hval
      cases h
      exact ⟨hopen, hval, rfl, rfl⟩

theorem openPayload_of_openManifest (h : openManifest x operator env = .ok m) :
    env.openPayload x WorkerManifest.decoder (some operator) = .ok m := by
  unfold openManifest at h
  split at h
  · rename_i m' hopen
    rw [hopen, Except.ok.inj h]
  · cases h
  · cases h

theorem openManifest_eq_ok (h : openManifest x operator env = .ok m) :
    env.signer = operator ∧ env.sig.length = operator.sigLength ∧
      ∃ rest, WorkerManifest.decoder env.payload = some (m, rest) := by
  obtain ⟨hsigner, hverify, hdec⟩ := Envelope.openPayload_eq_ok.1 (openPayload_of_openManifest h)
  obtain rfl := hsigner operator rfl
  exact ⟨rfl, SignerId.length_of_verify hverify, hdec⟩

theorem eq_of_digest_eq {envs : List Envelope} {e f : Envelope} {k : WorkerManifest}
    (hsha : x.CollisionFree (envs.map Envelope.digestInput)) (he : e ∈ envs) (hf : f ∈ envs)
    (hm : openManifest x operator e = .ok m) (hk : openManifest x operator f = .ok k)
    (h : e.digest x = f.digest x) : e = f := by
  exact Envelope.eq_of_digest_eq hsha he hf (openPayload_of_openManifest hm)
    (openPayload_of_openManifest hk) h

theorem offer_cases (held : Option ManifestRecord) (r : ManifestRecord) :
    (offer held r = (some r, .ok .changed) ∧
        ∀ h, held = some h → r.newer h ∧ r.breaksChain h = false) ∨
      ∃ h, held = some h ∧ (offer held r).1 = some h ∧ (offer held r).2 ≠ .ok .changed ∧
        (r.newer h = false ∨ r.breaksChain h) := by
  cases held with
  | none => exact .inl ⟨rfl, fun h hh => by cases hh⟩
  | some h =>
    by_cases hnew : r.newer h
    · by_cases hchain : r.breaksChain h
      · refine .inr ⟨h, rfl, ?_, ?_, .inr hchain⟩ <;> simp [offer, hnew, hchain]
      · refine .inl ⟨by simp [offer, hnew, hchain], fun k hk => ?_⟩
        cases hk
        exact ⟨hnew, by simpa using hchain⟩
    · refine .inr ⟨h, rfl, ?_, ?_, .inl (by simpa using hnew)⟩ <;> simp [offer, hnew]

namespace ManifestSet

variable {x : Crypto} {s : ManifestSet} {env : Envelope} {r : ManifestRecord}

theorem ingest_of_error {e : ManifestError} (h : readManifest x s.operator env = .error e) :
    s.ingest x env = (s, .error e) := by
  unfold ingest
  rw [h]

@[simp] theorem operator_ingest (x : Crypto) (s : ManifestSet) (env : Envelope) :
    (s.ingest x env).1.operator = s.operator := by
  unfold ingest
  split
  · rfl
  · split <;> rfl

/-- Ingesting a readable envelope offers its record to the name. -/
theorem get_ingest (h : readManifest x s.operator env = .ok r) (name : String) :
    (s.ingest x env).1.get name =
      if name = r.manifest.name then (offer (s.get name) r).1 else s.get name := by
  unfold ingest
  rw [h]
  dsimp only
  rcases offer_cases (s.get r.manifest.name) r with ⟨hoffer, -⟩ | ⟨held, hheld, hkeep, hne, -⟩
  · rw [hoffer]
    split_ifs with hname
    · rw [hname, hoffer]
      exact get_insert_self _ _ _
    · exact get_insert_of_ne _ _ hname
  · have hsame : (match offer (s.get r.manifest.name) r with
        | (_, .ok .changed) => (⟨s.operator, s.workers.insert r.manifest.name r⟩, .ok .changed)
        | (_, answer) => (s, answer) : ManifestSet × Except ManifestError ManifestIngest).1 = s := by
      split
      · rename_i heq
        exact absurd (congrArg Prod.snd heq) hne
      · rfl
    rw [hsame]
    split_ifs with hname
    · rw [hname, hkeep, hheld]
    · rfl

/-- An envelope is stored as a record that is newer than the one held and does not break the chain,
or nothing changes. -/
theorem ingest_cases (x : Crypto) (s : ManifestSet) (env : Envelope) :
    (∃ r, readManifest x s.operator env = .ok r ∧
        s.ingest x env = (⟨s.operator, s.workers.insert r.manifest.name r⟩, .ok .changed) ∧
        ∀ held, s.get r.manifest.name = some held →
          r.newer held ∧ r.breaksChain held = false) ∨
      (s.ingest x env).1 = s ∧ (s.ingest x env).2 ≠ .ok .changed := by
  cases hread : readManifest x s.operator env with
  | error e =>
    rw [ingest_of_error hread]
    exact .inr ⟨rfl, by simp⟩
  | ok r =>
    unfold ingest
    rw [hread]
    dsimp only
    rcases offer_cases (s.get r.manifest.name) r with ⟨hoffer, hnew⟩ | ⟨held, -, -, hne, -⟩
    · rw [hoffer]
      exact .inl ⟨r, rfl, rfl, hnew⟩
    · refine .inr ?_
      split
      · rename_i heq
        exact absurd (congrArg Prod.snd heq) hne
      · rename_i answer _ heq
        exact ⟨rfl, fun h => hne ((congrArg Prod.snd heq).trans h)⟩

end ManifestSet

/-! ### Verifying a history -/

/-- Check the envelopes of a history: contiguous versions of one worker, each linking the envelope
before it; `last` are the manifest and the digest just before, if there are any. -/
def verifyFrom (x : Crypto) (operator : SignerId) :
    Option (WorkerManifest × Digest) → List Envelope → Except ManifestError (List WorkerManifest)
  | _, [] => .ok []
  | last, env :: rest => do
      let m ← openManifest x operator env
      match last with
        | some (l, d) =>
            if m.version ≠ (l.version + 1) % UInt64.size ∨ m.name ≠ l.name then
              throw .chainBroken
            if m.prev ≠ some d then throw .chainBroken
        | none => if m.version = 1 ∧ m.prev.isSome then throw .chainBroken
      let ms ← verifyFrom x operator (some (m, env.digest x)) rest
      pure (m :: ms)

def verifyChain (x : Crypto) (envs : List Envelope) (operator : SignerId) :
    Except ManifestError (List WorkerManifest) :=
  verifyFrom x operator none envs

/-- The manifest may stand after `last`. -/
def Follows (last : Option (WorkerManifest × Digest)) (m : WorkerManifest) : Prop :=
  match last with
  | some (l, d) => m.version = (l.version + 1) % UInt64.size ∧ m.name = l.name ∧ m.prev = some d
  | none => m.version = 1 → m.prev = none

instance (last : Option (WorkerManifest × Digest)) (m : WorkerManifest) :
    Decidable (Follows last m) :=
  match last with
  | some (l, d) =>
      (inferInstance : Decidable
        (m.version = (l.version + 1) % UInt64.size ∧ m.name = l.name ∧ m.prev = some d))
  | none => (inferInstance : Decidable (m.version = 1 → m.prev = none))

/-- A history verifies if its first envelope opens and follows, and the rest verifies after it. -/
theorem verifyFrom_cons {last : Option (WorkerManifest × Digest)} {rest : List Envelope}
    {ms : List WorkerManifest} : verifyFrom x operator last (env :: rest) = .ok ms ↔
      ∃ m ms', openManifest x operator env = .ok m ∧ Follows last m ∧
        verifyFrom x operator (some (m, env.digest x)) rest = .ok ms' ∧ ms = m :: ms' := by
  cases hopen : openManifest x operator env with
  | error e => simp [verifyFrom, hopen, bind, Except.bind]
  | ok m =>
    have hstep : verifyFrom x operator last (env :: rest) =
        if Follows last m then
          (verifyFrom x operator (some (m, env.digest x)) rest).map (m :: ·)
        else .error .chainBroken := by
      rcases last with - | ⟨l, d⟩
      · by_cases hone : m.version = 1 <;> cases hprev : m.prev <;>
          simp [verifyFrom, Follows, hopen, hone, hprev, bind, Except.bind, pure, Except.pure,
            Except.map, throw, throwThe, MonadExceptOf.throw]
      · by_cases hver : m.version = (l.version + 1) % UInt64.size <;>
          by_cases hname : m.name = l.name <;> by_cases hprev : m.prev = some d <;>
          simp [verifyFrom, Follows, hopen, hver, hname, hprev, bind, Except.bind, pure,
            Except.pure, Except.map, throw, throwThe, MonadExceptOf.throw]
    rw [hstep]
    split_ifs with hfollows
    · cases hrest : verifyFrom x operator (some (m, env.digest x)) rest <;>
        simp [hfollows, hrest, Except.map, eq_comm]
    · simp [hfollows]

/-! ### Sample deployments -/

def sampleOperator : SignerId := .ed ⟨7⟩

/-- A static site without files. -/
def sampleSite (version : ℕ) (prev : Option Digest) (date : String) : WorkerManifest where
  name := "w"
  version := version
  prev := prev
  deleted := false
  main := ""
  modules := []
  assets := []
  hostnames := []
  env := empty
  kvBindings := empty
  crons := []
  compatibilityDate := date

/-- Its envelope. -/
def sampleDeploy (version : ℕ) (prev : Option Digest) (date : String) : Envelope :=
  .sample sampleOperator (sampleSite version prev date).encode

/-- The envelope of the version after another one. -/
def sampleSuccessor (version : ℕ) (previous : Envelope) (date : String) : Envelope :=
  sampleDeploy version (some (previous.digest sampleCrypto)) date

end RandallFlare
