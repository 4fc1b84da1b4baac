import RandallFlare.Claims.ClaimSet
import RandallFlare.Kv.Retention
import RandallFlare.Node.Store
import RandallFlare.Signed.ManifestSet

/-!
# A node and its store

What `rf/src/node.rs` does with manifests, claims and key-value entries: every call changes the
memory of the node, then writes the record to the store, and ends with an error if the store fails.
A call makes its transactions one after the other and ends with the first that fails; which ones
commit is an input, and so are the readings of the wall clock.

* `Node.openStore` (`Node::open`): hydrates a node from a store;
* `ingestManifest`, `ingestClaim`, `kvPut`, `kvPutWithMetadata`, `kvMergeRemote`, `gc`: the calls;
* `NodeState.step`: a node that takes calls.
-/

namespace RandallFlare

open SortedMap List

/-! ### Memory -/

/-- What a node keeps in memory. -/
structure Inner where
  clock : Clock
  claims : ClaimSet
  manifests : ManifestSet
  kv : SortedMap String Namespace

namespace Inner

/-- The namespace, as `entry(ns).or_default()` gives it. -/
def namespaceOf (inner : Inner) (ns : String) : Namespace := (inner.kv.get ns).getD Namespace.new

def kvEntry (inner : Inner) (ns key : String) : Option KvEntry := (inner.namespaceOf ns).entry key

/-- Write an entry. -/
def putKv (inner : Inner) (ns key : String) (e : KvEntry) : Inner :=
  { inner with kv := inner.kv.insert ns ((inner.namespaceOf ns).put key e) }

/-- Merge an entry; true when it was applied. -/
def mergeKv (x : Crypto) (inner : Inner) (ns key : String) (e : KvEntry) : Inner × Bool :=
  ({ inner with kv := inner.kv.insert ns ((inner.namespaceOf ns).merge (valueHash x) key e).1 },
    ((inner.namespaceOf ns).merge (valueHash x) key e).2)

theorem kvEntry_putKv (inner : Inner) (ns key : String) (e : KvEntry) (ns' key' : String) :
    (inner.putKv ns key e).kvEntry ns' key' =
      if ns' = ns ∧ key' = key then some e else inner.kvEntry ns' key' := by
  unfold kvEntry namespaceOf putKv
  rw [get_insert]
  by_cases hns : ns' = ns
  · subst hns
    simp only [↓reduceIte, Option.getD_some, true_and]
    exact get_insert _ _ _ _
  · simp only [hns, ↓reduceIte, false_and]

theorem kvEntry_mergeKv (x : Crypto) (inner : Inner) (ns key : String) (e : KvEntry)
    (ns' key' : String) : (inner.mergeKv x ns key e).1.kvEntry ns' key' =
      if (inner.mergeKv x ns key e).2 = true then (inner.putKv ns key e).kvEntry ns' key'
      else inner.kvEntry ns' key' := by
  unfold mergeKv
  rcases (inner.namespaceOf ns).merge_cases (valueHash x) key e with h | h
  · rw [h]
    rfl
  · rw [h, if_neg (by simp)]
    show (((inner.kv.insert ns (inner.namespaceOf ns)).get ns').getD Namespace.new).entry key' = _
    rw [get_insert]
    split_ifs with hns
    · subst hns
      rfl
    · rfl

end Inner

/-! ### Calls -/

/-- A node: its identity, the operator it obeys, its memory and its store. -/
structure Node where
  id : PublicId
  operator : SignerId
  inner : Inner
  store : NodeStore

/-- Why a call fails. -/
inductive NodeError
  | manifest (e : ManifestError)
  | envelope (e : EnvelopeError)
  | store
  deriving DecidableEq

namespace Node

variable (x : Crypto)

/-- `Node::open`: boot from the store. -/
def openStore (id : PublicId) (operator : SignerId) (store : NodeStore) (wallMs : ℕ) :
    Except String Node := do
  let items ← store.loadKv
  let inner : Inner :=
    ⟨Clock.new, ClaimSet.new.ingestAll x store.loadClaims,
      (ManifestSet.new operator).ingestAll x store.loadManifests, empty⟩
  let inner := items.foldl (fun inner item =>
    let merged := (inner.mergeKv x item.1 item.2.1 item.2.2).1
    { merged with clock := inner.clock.observe item.2.2.hlc wallMs }) inner
  pure ⟨id, operator, inner, store⟩

/-- A node on an empty store. -/
def new (id : PublicId) (operator : SignerId) : Node :=
  ⟨id, operator, ⟨Clock.new, ClaimSet.new, ManifestSet.new operator, empty⟩, NodeStore.empty⟩

def ingestManifest (disk : ℕ → Bool) (n : Node) (env : Envelope) : Node × Except NodeError Bool :=
  let result := n.inner.manifests.ingest x env
  let n := { n with inner := { n.inner with manifests := result.1 } }
  match result.2 with
  | .error e => (n, .error (.manifest e))
  | .ok .stale => (n, .ok false)
  | .ok .changed => match env.openPayload x WorkerManifest.decoder (some n.operator) with
      | .error e => (n, .error (.envelope e))
      | .ok m =>
          if ¬ disk 0 then (n, .error .store)
          else
            let n := { n with store := n.store.putManifest m.name env }
            if ¬ disk 1 then (n, .error .store)
            else ({ n with store := n.store.putLog m.name m.version env }, .ok true)

def ingestClaim (wall : ℕ → ℕ) (disk : ℕ → Bool) (n : Node) (env : Envelope) :
    Node × Except NodeError Bool :=
  let result := n.inner.claims.ingest x env
  let n := { n with inner := { n.inner with claims := result.1 } }
  match result.2 with
  | .ok .changed => match env.openPayload x Claim.decoder none with
      | .ok c =>
          let n := { n with inner :=
            { n.inner with clock := n.inner.clock.observe c.renewed (wall 0) } }
          if ¬ disk 0 then (n, .error .store)
          else
            ({ n with store := n.store.putClaim c.task (SignerId.ed c.holder).text env }, .ok true)
      | .error _ => (n, .ok true)
  | .ok .stale => (n, .ok false)
  | .error _ => (n, .ok false)

def kvPutEntry (wallMs : ℕ) (commits : Bool) (n : Node) (ns key : String) (value : Option Bytes)
    (expiresAtMs : Option ℕ) : Node × Except NodeError Unit :=
  let clock := n.inner.clock.now wallMs
  let entry : KvEntry := ⟨clock.last, n.id, value, expiresAtMs⟩
  let n := { n with inner := { n.inner.putKv ns key entry with clock } }
  if ¬ commits then (n, .error .store)
  else ({ n with store := n.store.putKv ns key entry }, .ok ())

def kvMetadataNamespace (ns : String) : String :=
  String.ofList ("__rf_kvmeta/".toList ++
    hexEncode (beBytes 32 (x.sha256 (Postcard.utf8 ns)).toNat))

def kvPut (wall : ℕ → ℕ) (disk : ℕ → Bool) (n : Node) (ns key : String) (value : Option Bytes)
    (expiresAtMs : Option ℕ) : Node × Except NodeError Unit :=
  match n.kvPutEntry (wall 0) (disk 0) ns key value expiresAtMs with
  | (n, .error e) => (n, .error e)
  | (n, .ok ()) =>
      if "__rf".toList <+: ns.toList then (n, .ok ())
      else n.kvPutEntry (wall 1) (disk 1) (kvMetadataNamespace x ns) key none none

def kvPutWithMetadata (wall : ℕ → ℕ) (disk : ℕ → Bool) (n : Node) (ns key : String)
    (value : Option Bytes) (expiresAtMs : Option ℕ) (metadata : Option Bytes) :
    Node × Except NodeError Unit :=
  match n.kvPutEntry (wall 0) (disk 0) ns key value expiresAtMs with
  | (n, .error e) => (n, .error e)
  | (n, .ok ()) =>
      n.kvPutEntry (wall 1) (disk 1) (kvMetadataNamespace x ns) key metadata expiresAtMs

/-- Merge one item into memory; true when it was applied. -/
def kvMergeItem (wallMs : ℕ) (n : Node) (ns : String) (p : String × KvEntry) : Node × Bool :=
  let result := n.inner.mergeKv x ns p.1 p.2
  ({ n with inner := { result.1 with clock := n.inner.clock.observe p.2.hlc wallMs } }, result.2)

/-- The loop of `Node::kv_merge_remote`: `i` items have been looked at and `applied` of them
applied. -/
def kvMergeFrom (wall : ℕ → ℕ) (disk : ℕ → Bool) (ns : String) (i applied : ℕ) :
    Node → List (String × KvEntry) → Node × Except NodeError ℕ
  | n, [] => (n, .ok applied)
  | n, p :: items => match n.kvMergeItem x (wall i) ns p with
      | (n, false) => kvMergeFrom wall disk ns (i + 1) applied n items
      | (n, true) =>
          if ¬ disk applied then (n, .error .store)
          else kvMergeFrom wall disk ns (i + 1) (applied + 1)
            { n with store := n.store.putKv ns p.1 p.2 } items

def kvMergeRemote (wall : ℕ → ℕ) (disk : ℕ → Bool) (n : Node) (ns : String)
    (items : List (String × KvEntry)) : Node × Except NodeError ℕ :=
  kvMergeFrom x wall disk ns 0 0 n items

def kvGet (n : Node) (ns key : String) (nowMs : ℕ) : Option Bytes :=
  (n.inner.kv.get ns).bind fun m => m.get key nowMs

theorem kvGet_eq (n : Node) (ns key : String) (nowMs : ℕ) :
    n.kvGet ns key nowMs = (n.inner.kvEntry ns key).bind fun e => e.visible nowMs := by
  unfold kvGet Inner.kvEntry Inner.namespaceOf
  cases n.inner.kv.get ns with
  | none => rfl
  | some m => rfl

/-- A day. -/
def horizonMs : ℕ := 24 * 3600 * 1000

def gc (n : Node) (nowMs : ℕ) : Node :=
  { n with inner := { n.inner with
      claims := n.inner.claims.gc nowMs horizonMs
      kv := n.inner.kv.mapValues fun m => m.gc nowMs horizonMs } }

end Node

/-! ### Runs -/

inductive NodeCall
  | ingestManifest (env : Envelope)
  | ingestClaim (env : Envelope)
  | kvPut (ns key : String) (value : Option Bytes) (expiresAtMs : Option ℕ)
  | kvPutWithMetadata (ns key : String) (value : Option Bytes) (expiresAtMs : Option ℕ)
      (metadata : Option Bytes)
  | kvMergeRemote (ns : String) (items : List (String × KvEntry))
  | gc

/-- A call, the readings of the wall clock it gets and which of its transactions commit. -/
structure NodeEvent where
  call : NodeCall
  wall : ℕ → ℕ
  disk : ℕ → Bool

/-- The node after a call, whatever it answers. -/
def Node.perform (x : Crypto) (n : Node) (ev : NodeEvent) : Node :=
  match ev.call with
  | .ingestManifest env => (n.ingestManifest x ev.disk env).1
  | .ingestClaim env => (n.ingestClaim x ev.wall ev.disk env).1
  | .kvPut ns key value exp => (n.kvPut x ev.wall ev.disk ns key value exp).1
  | .kvPutWithMetadata ns key value exp metadata =>
      (n.kvPutWithMetadata x ev.wall ev.disk ns key value exp metadata).1
  | .kvMergeRemote ns items => (n.kvMergeRemote x ev.wall ev.disk ns items).1
  | .gc => n.gc (ev.wall 0)

/-- A node, and the latest time at which it has collected garbage. -/
structure NodeState where
  node : Node
  lastGc : ℕ

namespace NodeState

def init (id : PublicId) (operator : SignerId) : NodeState := ⟨Node.new id operator, 0⟩

def step (x : Crypto) (s : NodeState) (ev : NodeEvent) : Option NodeState :=
  some ⟨s.node.perform x ev, match ev.call with
    | .gc => max s.lastGc (ev.wall 0)
    | _ => s.lastGc⟩

end NodeState

/-! ### Parts of a node -/

@[ext] structure ManifestPart where
  operator : SignerId
  memory : ManifestSet
  table : SortedMap String Envelope
  log : SortedMap String Envelope

@[ext] structure ClaimPart where
  memory : ClaimSet
  table : SortedMap String Envelope

/-- What a node has of key-value entries. -/
@[ext] structure KvPart where
  memory : String → String → Option KvEntry
  table : SortedMap String KvEntry

/-- Write an entry to memory and store. -/
def KvPart.write (p : KvPart) (w : String × String × KvEntry) : KvPart where
  memory := fun ns key => if ns = w.1 ∧ key = w.2.1 then some w.2.2 else p.memory ns key
  table := p.table.insert (kvTableKey w.1 w.2.1) w.2.2

namespace Node

def manifestPart (n : Node) : ManifestPart :=
  ⟨n.operator, n.inner.manifests, n.store.manifests, n.store.log⟩

def claimPart (n : Node) : ClaimPart := ⟨n.inner.claims, n.store.claims⟩

def kvPart (n : Node) : KvPart := ⟨n.inner.kvEntry, n.store.kv⟩

variable {x : Crypto} {n : Node} {wall : ℕ → ℕ} {disk : ℕ → Bool} {env : Envelope}

theorem manifestPart_ingestManifest (n : Node) (x : Crypto) (disk : ℕ → Bool) (env : Envelope)
    (hop : n.inner.manifests.operator = n.operator) :
    (n.ingestManifest x disk env).1.manifestPart = n.manifestPart ∨
      ∃ r, readManifest x n.operator env = .ok r ∧
        (∀ held, n.inner.manifests.get r.manifest.name = some held →
          r.newer held ∧ r.breaksChain held = false) ∧
        (n.ingestManifest x disk env).1.manifestPart =
          ⟨n.operator, ⟨n.operator, n.inner.manifests.workers.insert r.manifest.name r⟩,
            if disk 0 then n.store.manifests.insert r.manifest.name env else n.store.manifests,
            if disk 0 && disk 1 then
              n.store.log.insert (logKey r.manifest.name r.manifest.version) env
            else n.store.log⟩ := by
  unfold ingestManifest
  rcases ManifestSet.ingest_cases x n.inner.manifests env with
    ⟨r, hread, hingest, hnew⟩ | ⟨hsame, hne⟩
  · rw [hop] at hread hingest
    have hopen : env.openPayload x WorkerManifest.decoder (some n.operator) = .ok r.manifest :=
      openPayload_of_openManifest (readManifest_eq_ok hread).1
    refine .inr ⟨r, hread, hnew, ?_⟩
    rw [hingest]
    dsimp only
    rw [hopen]
    cases disk 0 <;> cases disk 1 <;> rfl
  · refine .inl ?_
    dsimp only
    rw [hsame]
    split
    · rfl
    · rfl
    · rename_i hchanged
      exact absurd hchanged hne

theorem claimPart_ingestClaim (n : Node) (x : Crypto) (wall : ℕ → ℕ) (disk : ℕ → Bool)
    (env : Envelope) : (n.ingestClaim x wall disk env).1.claimPart = n.claimPart ∨
      ∃ r, readClaim x env = .ok r ∧ (n.ingestClaim x wall disk env).1.claimPart =
          ⟨n.inner.claims.store r, if disk 0 then
              n.store.claims.insert (claimKey r.claim.task (SignerId.ed r.claim.holder).text) env
            else n.store.claims⟩ := by
  unfold ingestClaim
  rcases ClaimSet.ingest_cases x n.inner.claims env with ⟨r, hread, hingest⟩ | ⟨hsame, hne⟩
  · refine .inr ⟨r, hread, ?_⟩
    rw [hingest]
    rw [openPayload_of_readClaim hread]
    cases disk 0 <;> rfl
  · refine .inl ?_
    dsimp only
    rw [hsame]
    split
    · rename_i hchanged
      exact absurd hchanged hne
    · rfl
    · rfl

theorem kvPart_kvPutEntry (wallMs : ℕ) (ns key : String) (value : Option Bytes)
    (expiresAtMs : Option ℕ) :
    ∃ m e, n.kvPutEntry wallMs true ns key value expiresAtMs = (m, .ok ()) ∧
      m.kvPart = n.kvPart.write (ns, key, e) := by
  refine ⟨_, ⟨(n.inner.clock.now wallMs).last, n.id, value, expiresAtMs⟩, rfl,
    KvPart.ext (funext fun ns' => funext fun key' => ?_) rfl⟩
  exact n.inner.kvEntry_putKv ns key _ ns' key'

theorem nulFree_kvMetadataNamespace (x : Crypto) (ns : String) :
    NulFree (kvMetadataNamespace x ns) := by
  have hdigit : ∀ k < 16, hexDigit k ≠ nul := by decide
  unfold NulFree kvMetadataNamespace
  rw [String.toList_ofList, mem_append, not_or]
  refine ⟨by decide, ?_⟩
  simp only [hexEncode, mem_flatMap, not_exists, not_and, mem_cons, not_mem_nil,
    or_false, not_or]
  intro b _
  have hb := b.toNat_lt
  exact ⟨(hdigit _ (by omega)).symm, (hdigit _ (by omega)).symm⟩

variable {ns : String} {items : List (String × KvEntry)} {i applied : ℕ}

/-- What an entry and then its metadata write. -/
theorem kvPart_putMetadata {m : Node} {key : String} {e : KvEntry} (hns : NulFree ns)
    (hm : m.kvPart = n.kvPart.write (ns, key, e)) (wallMs : ℕ) (value : Option Bytes)
    (expiresAtMs : Option ℕ) : ∃ ws : List (String × String × KvEntry), (∀ w ∈ ws, NulFree w.1) ∧
      (m.kvPutEntry wallMs true (kvMetadataNamespace x ns) key value expiresAtMs).1.kvPart =
        ws.foldl KvPart.write n.kvPart := by
  obtain ⟨m', e', hm', hpart⟩ :=
    kvPart_kvPutEntry (n := m) wallMs (kvMetadataNamespace x ns) key value expiresAtMs
  refine ⟨[(ns, key, e), (kvMetadataNamespace x ns, key, e')], ?_, ?_⟩
  · simpa using ⟨hns, nulFree_kvMetadataNamespace x ns⟩
  · rw [hm', hpart, hm]
    rfl

theorem kvPart_kvPut (hns : NulFree ns) (key : String) (value : Option Bytes)
    (expiresAtMs : Option ℕ) (h₀ : disk 0) (h₁ : disk 1) :
    ∃ ws : List (String × String × KvEntry), (∀ w ∈ ws, NulFree w.1) ∧
      (n.kvPut x wall disk ns key value expiresAtMs).1.kvPart = ws.foldl KvPart.write n.kvPart := by
  obtain ⟨m, e, hm, hpart⟩ := kvPart_kvPutEntry (n := n) (wall 0) ns key value expiresAtMs
  unfold kvPut
  rw [h₀, h₁, hm]
  split_ifs
  · exact ⟨[(ns, key, e)], by simpa using hns, hpart⟩
  · exact kvPart_putMetadata hns hpart (wall 1) none none

theorem kvPart_kvPutWithMetadata (hns : NulFree ns) (key : String)
    (value : Option Bytes) (expiresAtMs : Option ℕ) (metadata : Option Bytes) (h₀ : disk 0)
    (h₁ : disk 1) : ∃ ws : List (String × String × KvEntry), (∀ w ∈ ws, NulFree w.1) ∧
      (n.kvPutWithMetadata x wall disk ns key value expiresAtMs metadata).1.kvPart =
        ws.foldl KvPart.write n.kvPart := by
  obtain ⟨m, e, hm, hpart⟩ := kvPart_kvPutEntry (n := n) (wall 0) ns key value expiresAtMs
  unfold kvPutWithMetadata
  rw [h₀, h₁, hm]
  exact kvPart_putMetadata hns hpart (wall 1) metadata expiresAtMs

theorem kvPart_kvMergeItem (x : Crypto) (n : Node) (wallMs : ℕ) (ns : String)
    (p : String × KvEntry) : (n.kvMergeItem x wallMs ns p).1.kvPart =
      if (n.kvMergeItem x wallMs ns p).2 = true then
        ⟨(n.kvPart.write (ns, p.1, p.2)).memory, n.store.kv⟩ else n.kvPart := by
  have hentry := n.inner.kvEntry_mergeKv x ns p.1 p.2
  split_ifs with happ
  · refine KvPart.ext (funext fun ns' => funext fun key' => ?_) rfl
    exact ((hentry ns' key').trans (if_pos happ)).trans
      (n.inner.kvEntry_putKv ns p.1 p.2 ns' key')
  · refine KvPart.ext (funext fun ns' => funext fun key' => ?_) rfl
    exact (hentry ns' key').trans (if_neg happ)

theorem kvPart_kvMergeFrom (hns : NulFree ns)
    (hdisk : ∀ j < applied + items.length, disk j) :
    ∃ ws : List (String × String × KvEntry), (∀ w ∈ ws, NulFree w.1) ∧
      (kvMergeFrom x wall disk ns i applied n items).1.kvPart = ws.foldl KvPart.write n.kvPart := by
  induction items generalizing n i applied with
  | nil => exact ⟨[], by simp, rfl⟩
  | cons p items ih =>
    rw [length_cons] at hdisk
    have hitem := kvPart_kvMergeItem x n (wall i) ns p
    unfold kvMergeFrom
    split
    · rename_i m hm
      rw [hm] at hitem
      obtain ⟨ws, hws, hpart⟩ := @ih m (i + 1) applied fun j hj => hdisk j (by omega)
      exact ⟨ws, hws, hpart.trans (congrArg (ws.foldl KvPart.write) hitem)⟩
    · rename_i m hm
      rw [hm] at hitem
      have hwritten : m.kvPart = ⟨(n.kvPart.write (ns, p.1, p.2)).memory, n.store.kv⟩ := hitem
      have hmemory : m.kvPart.memory = (n.kvPart.write (ns, p.1, p.2)).memory := by rw [hwritten]
      have htable : m.store.kv = n.store.kv := congrArg KvPart.table hwritten
      rw [if_neg (not_not.2 (hdisk applied (by omega)))]
      obtain ⟨ws, hws, hpart⟩ := @ih { m with store := m.store.putKv ns p.1 p.2 } (i + 1)
        (applied + 1) fun j hj => hdisk j (by omega)
      refine ⟨(ns, p.1, p.2) :: ws, ?_, hpart.trans (congrArg (ws.foldl KvPart.write) ?_)⟩
      · intro w hw
        rcases mem_cons.1 hw with rfl | hw
        · exact hns
        · exact hws w hw
      · refine KvPart.ext hmemory ?_
        show m.store.kv.insert _ _ = n.store.kv.insert _ _
        rw [htable]

/-! #### What a call leaves alone -/

theorem frame_ingestManifest (n : Node) (x : Crypto) (disk : ℕ → Bool) (env : Envelope) :
    (n.ingestManifest x disk env).1.claimPart = n.claimPart ∧
      (n.ingestManifest x disk env).1.kvPart = n.kvPart := by
  unfold ingestManifest
  dsimp only
  split
  · exact ⟨rfl, rfl⟩
  · exact ⟨rfl, rfl⟩
  · split
    · exact ⟨rfl, rfl⟩
    · cases disk 0 <;> cases disk 1 <;> exact ⟨rfl, rfl⟩

theorem frame_ingestClaim (n : Node) (x : Crypto) (wall : ℕ → ℕ) (disk : ℕ → Bool)
    (env : Envelope) : (n.ingestClaim x wall disk env).1.manifestPart = n.manifestPart ∧
      (n.ingestClaim x wall disk env).1.kvPart = n.kvPart := by
  unfold ingestClaim
  dsimp only
  split
  · split
    · cases disk 0 <;> exact ⟨rfl, rfl⟩
    · exact ⟨rfl, rfl⟩
  · exact ⟨rfl, rfl⟩
  · exact ⟨rfl, rfl⟩

theorem frame_kvPutEntry (wallMs : ℕ) (commits : Bool) (ns key : String) (value : Option Bytes)
    (expiresAtMs : Option ℕ) :
    (n.kvPutEntry wallMs commits ns key value expiresAtMs).1.manifestPart = n.manifestPart ∧
      (n.kvPutEntry wallMs commits ns key value expiresAtMs).1.claimPart = n.claimPart := by
  cases commits <;> exact ⟨rfl, rfl⟩

theorem frame_kvMergeFrom :
    (kvMergeFrom x wall disk ns i applied n items).1.manifestPart = n.manifestPart ∧
      (kvMergeFrom x wall disk ns i applied n items).1.claimPart = n.claimPart := by
  induction items generalizing n i applied with
  | nil => exact ⟨rfl, rfl⟩
  | cons p items ih =>
    have hitem : (n.kvMergeItem x (wall i) ns p).1.manifestPart = n.manifestPart ∧
        (n.kvMergeItem x (wall i) ns p).1.claimPart = n.claimPart := ⟨rfl, rfl⟩
    unfold kvMergeFrom
    split
    · rename_i m hm
      rw [hm] at hitem
      exact ⟨ih.1.trans hitem.1, ih.2.trans hitem.2⟩
    · rename_i m hm
      rw [hm] at hitem
      split_ifs
      · exact ⟨ih.1.trans hitem.1, ih.2.trans hitem.2⟩
      · exact hitem

theorem frame_kv {ev : NodeEvent} (hm : ∀ env, ev.call ≠ .ingestManifest env)
    (hc : ∀ env, ev.call ≠ .ingestClaim env) (hgc : ev.call ≠ .gc) :
    (n.perform x ev).manifestPart = n.manifestPart ∧ (n.perform x ev).claimPart = n.claimPart := by
  unfold perform
  split
  · exact absurd ‹_› (hm _)
  · exact absurd ‹_› (hc _)
  · rename_i ns key value exp _
    have hfirst := frame_kvPutEntry (n := n) (ev.wall 0) (ev.disk 0) ns key value exp
    unfold kvPut
    split
    · rename_i m e heq
      rwa [heq] at hfirst
    · rename_i m heq
      rw [heq] at hfirst
      split_ifs
      · exact hfirst
      · have hsecond := frame_kvPutEntry (n := m) (ev.wall 1) (ev.disk 1)
          (kvMetadataNamespace x ns) key none none
        exact ⟨hsecond.1.trans hfirst.1, hsecond.2.trans hfirst.2⟩
  · rename_i ns key value exp metadata _
    have hfirst := frame_kvPutEntry (n := n) (ev.wall 0) (ev.disk 0) ns key value exp
    unfold kvPutWithMetadata
    split
    · rename_i m e heq
      rwa [heq] at hfirst
    · rename_i m heq
      rw [heq] at hfirst
      have hsecond := frame_kvPutEntry (n := m) (ev.wall 1) (ev.disk 1)
        (kvMetadataNamespace x ns) key metadata exp
      exact ⟨hsecond.1.trans hfirst.1, hsecond.2.trans hfirst.2⟩
  · exact frame_kvMergeFrom
  · exact absurd ‹_› hgc

end Node

end RandallFlare
