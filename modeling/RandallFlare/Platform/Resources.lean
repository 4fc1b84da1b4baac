import RandallFlare.Lib.Groups
import RandallFlare.Lib.Lineage
import RandallFlare.Node.Node
import RandallFlare.Signed.Resource

/-!
# Platform resources on a node

A translation of `rf/src/resource.rs`.  Signed records are kept in a namespace of the key-value
store, under their kind, name, version and digest.  A record counts once the chain to a record of
version 1 is there; until then it stays in the store.  The clock is read once for a pass over the
namespace.

* `ingestResource` (`resource::ingest`), `records`, `head`, `heads`;
* `mem_resourceRecords`: the records that count are the connected ones.
-/

namespace RandallFlare

open SortedMap List Option

def resourceNamespace : String := "__rf_platform_resources_v1"

/-- A record and the digest of its envelope. -/
structure ResourceView where
  resource : ResourceRecord
  digest : String
  deriving DecidableEq

namespace ResourceView

/-- The kind and the name. -/
def id (v : ResourceView) : String ×ₗ String := toLex (v.resource.kind, v.resource.name)

/-- What the records of a resource are ordered by. -/
def rank (v : ResourceView) : ℕ ×ₗ String := toLex (v.resource.version, v.digest)

end ResourceView

def resourceLineage : Lineage ResourceView String where
  version := fun v => v.resource.version
  prev := fun v => v.resource.prev.map hexDigest
  digest := ResourceView.digest

namespace ResourceRecord

/-- How the keys of the records of a resource start. -/
def keyStart (r : ResourceRecord) : List Char :=
  r.kind.toList ++ '/' :: (r.name.toList ++ ['/'])

def key (r : ResourceRecord) (digest : String) : String :=
  String.ofList (r.keyStart ++ (TableKey.padDecimal 20 r.version ++ '/' :: digest.toList))

theorem keyStart_key (r : ResourceRecord) (digest : String) :
    r.keyStart <+: (r.key digest).toList := by
  rw [key, String.toList_ofList]
  exact prefix_append _ _

end ResourceRecord

/-- Why a record is not ingested. -/
inductive ResourceError
  | signature (e : EnvelopeError)
  | invalid (message : String)
  | store
  deriving DecidableEq

section

variable (x : Crypto) (json : JsonReader)

/-- Open an envelope of the operator and validate the record. -/
def readResource (operator : SignerId) (env : Envelope) : Except ResourceError ResourceRecord :=
  match env.openPayload x ResourceRecord.decoder (some operator) with
  | .error e => .error (.signature e)
  | .ok r => match r.validate json with
      | .error message => .error (.invalid message)
      | .ok () => .ok r

/-- The record in a value of the namespace, if there is one and the key is one of its own. -/
def ResourceView.read (operator : SignerId) (key : String) (bytes : Bytes) : Option ResourceView :=
  match Envelope.fromBytes bytes with
  | .error _ => none
  | .ok env => match readResource x json operator env with
      | .error _ => none
      | .ok r =>
          if r.keyStart <+: key.toList then some ⟨r, hexDigest (env.digest x)⟩ else none

namespace Node

def kvDump (n : Node) (ns : String) : List (String × KvEntry) :=
  match n.inner.kv.get ns with
  | some m => m.entries.entries
  | none => []

/-- The records of the namespace whose keys start so. -/
def candidates (n : Node) (nowMs : ℕ) (start : List Char) : List ResourceView :=
  (n.kvDump resourceNamespace).filterMap fun p =>
    if start <+: p.1.toList then
      (p.2.visible nowMs).bind (ResourceView.read x json n.operator p.1)
    else none

/-- The records of one resource that count. -/
def connected (group : List ResourceView) : List ResourceView :=
  resourceLineage.scan empty (group.insertionSort fun a b => a.rank ≤ b.rank)

/-- `resource::records`: the records connected to one of version 1. -/
def records (n : Node) (nowMs : ℕ) (kind name : Option String) : List ResourceView :=
  let start := match kind, name with
    | some kind, some name => kind.toList ++ '/' :: (name.toList ++ ['/'])
    | some kind, none => kind.toList ++ ['/']
    | none, _ => []
  (groupBy ResourceView.id (n.candidates x json nowMs start)).values.flatMap connected

/-- `resource::head`; of several highest records it is the last one. -/
def head (n : Node) (nowMs : ℕ) (kind name : String) : Option ResourceView :=
  ((n.records x json nowMs (some kind) (some name)).filter fun v =>
      v.resource.kind = kind ∧ v.resource.name = name).foldl
    (fun best v => match best with
      | some b => if v.rank < b.rank then some b else some v
      | none => some v) none

def heads (n : Node) (nowMs : ℕ) (kind : Option String) : List ResourceView :=
  (latestBy ResourceView.id ResourceView.rank (n.records x json nowMs kind none)).values

/-- `resource::ingest`. -/
def ingestResource (wall : ℕ → ℕ) (disk : ℕ → Bool) (n : Node) (env : Envelope) :
    Node × Except ResourceError ResourceRecord :=
  match readResource x json n.operator env with
  | .error e => (n, .error e)
  | .ok r =>
      let key := r.key (hexDigest (env.digest x))
      if (n.kvGet resourceNamespace key (wall 0)).isNone then
        match n.kvPut x (fun i => wall (i + 1)) disk resourceNamespace key (some env.toBytes) none with
        | (n, .error _) => (n, .error .store)
        | (n, .ok ()) => (n, .ok r)
      else (n, .ok r)

end Node

end

/-! ### What counts -/

variable {x : Crypto} {json : JsonReader} {n : Node} {nowMs : ℕ}

variable {operator : SignerId} {env : Envelope} {r : ResourceRecord} {key : String}
  {v : ResourceView} {ns : String} {start : List Char} {envs : List Envelope} {m : Node}

theorem readResource_eq_ok : readResource x json operator env = .ok r ↔
      env.openPayload x ResourceRecord.decoder (some operator) = .ok r ∧ r.validate json = .ok () := by
  unfold readResource
  cases env.openPayload x ResourceRecord.decoder (some operator) with
  | error e => simp
  | ok q =>
    dsimp only
    cases hval : q.validate json with
    | error message =>
      refine ⟨nofun, ?_⟩
      rintro ⟨⟨⟩, hr⟩
      exact absurd (hval.symm.trans hr) nofun
    | ok u =>
      constructor
      · rintro ⟨⟩
        exact ⟨rfl, hval⟩
      · rintro ⟨⟨⟩, -⟩
        rfl

theorem ResourceView.read_eq_some {bytes : Bytes} : read x json operator key bytes = some v ↔
      ∃ env, Envelope.fromBytes bytes = .ok env ∧
        readResource x json operator env = .ok v.resource ∧
        v.resource.keyStart <+: key.toList ∧ v.digest = hexDigest (env.digest x) := by
  obtain ⟨r, d⟩ := v
  unfold read
  cases Envelope.fromBytes bytes with
  | error e => simp
  | ok env =>
    dsimp only
    cases hread : readResource x json operator env with
    | error e => simp [hread]
    | ok q =>
      dsimp only
      split_ifs with hstart
      · simp only [some_inj, ResourceView.mk.injEq, Except.ok.injEq, exists_eq_left', hread]
        constructor
        · rintro ⟨rfl, rfl⟩
          exact ⟨rfl, hstart, rfl⟩
        · rintro ⟨rfl, -, rfl⟩
          exact ⟨rfl, rfl⟩
      · simp only [Except.ok.injEq, exists_eq_left', hread, false_iff]
        rintro ⟨rfl, hstart', -⟩
        exact hstart hstart'

/-- The records that count are those connected to one of version 1. -/
theorem mem_connected {l : List ResourceView} (hpos : ∀ v ∈ l, v.resource.version ≠ 0)
    (hdigest : ∀ v ∈ l, ∀ w ∈ l, v.digest = w.digest → v = w) :
    v ∈ (groupBy ResourceView.id l).values.flatMap Node.connected ↔
      resourceLineage.Connected {w | w ∈ l ∧ w.id = v.id} v := by
  -- One group.
  have hgroup : ∀ k, v ∈ Node.connected (l.filter (ResourceView.id · = k)) ↔
      resourceLineage.Connected {w | w ∈ l ∧ w.id = k} v := by
    intro k
    set s := (l.filter (ResourceView.id · = k)).insertionSort fun a b => a.rank ≤ b.rank with hs
    have hmem : ∀ w, w ∈ s ↔ w ∈ l ∧ w.id = k := by simp [hs]
    rw [← Set.ext hmem]
    refine Lineage.mem_scan ?_ (fun w hw => hpos w ((hmem w).1 hw).1)
      fun w hw u hu h => congrArg _ (hdigest w ((hmem w).1 hw).1 u ((hmem u).1 hu).1 h)
    refine Pairwise.imp ?_ (pairwise_insertionSort
      (fun a b : ResourceView => a.rank ≤ b.rank) _)
    intro a b hab
    rcases Prod.Lex.le_iff.1 hab with hlt | ⟨heq, -⟩
    · exact hlt.le
    · exact heq.le
  rw [mem_flatMap]
  constructor
  · rintro ⟨g, hg, hv⟩
    obtain ⟨k, hk⟩ := (mem_values _).1 hg
    rw [eq_filter_of_get_groupBy _ hk, hgroup] at hv
    obtain rfl := hv.mem.2
    exact hv
  · intro hv
    cases hget : (groupBy ResourceView.id l).get v.id with
    | none =>
      have hnil := getD_groupBy ResourceView.id l v.id
      rw [hget] at hnil
      have hmem : v ∈ l.filter (ResourceView.id · = v.id) := by simpa using hv.mem.1
      rw [← hnil] at hmem
      cases hmem
    | some g =>
      refine ⟨g, (mem_values _).2 ⟨_, hget⟩, ?_⟩
      rw [eq_filter_of_get_groupBy _ hget, hgroup]
      exact hv

/-! ### What is stored -/

/-- What a value of the namespace is made of. -/
structure Holds (x : Crypto) (json : JsonReader) (operator : SignerId) (key : String) (e : KvEntry)
    (env : Envelope) (r : ResourceRecord) : Prop where
  read : readResource x json operator env = .ok r
  key_eq : key = r.key (hexDigest (env.digest x))
  bytes : Envelope.fromBytes env.toBytes = .ok env
  value : e.value = some env.toBytes
  expires : e.expiresAtMs = none

/-- Every value of the namespace is one of the envelopes, written by `ingestResource`. -/
def Node.Keeps (x : Crypto) (json : JsonReader) (envs : List Envelope) (n : Node) : Prop :=
  ∀ key e, n.inner.kvEntry resourceNamespace key = some e →
    ∃ env ∈ envs, ∃ r, Holds x json n.operator key e env r

/-- The namespace has the record, whether or not it counts. -/
def Node.Stored (x : Crypto) (json : JsonReader) (n : Node) (v : ResourceView) : Prop :=
  ∃ key e env, n.inner.kvEntry resourceNamespace key = some e ∧
    Holds x json n.operator key e env v.resource ∧ v.digest = hexDigest (env.digest x)

theorem mem_kvDump {e : KvEntry} : (key, e) ∈ n.kvDump ns ↔ n.inner.kvEntry ns key = some e := by
  unfold Node.kvDump Inner.kvEntry Inner.namespaceOf
  cases n.inner.kv.get ns with
  | none => simp
  | some m => exact (get_eq_some_iff m.entries).symm

/-- The namespace shows the record, under a key of its own. -/
def Node.Filed (x : Crypto) (json : JsonReader) (n : Node) (nowMs : ℕ) (v : ResourceView) : Prop :=
  ∃ key e bytes env, n.inner.kvEntry resourceNamespace key = some e ∧ e.visible nowMs = some bytes ∧
    Envelope.fromBytes bytes = .ok env ∧ readResource x json n.operator env = .ok v.resource ∧
    v.resource.keyStart <+: key.toList ∧ v.digest = hexDigest (env.digest x)

theorem filed_of_mem_candidates
    (hv : v ∈ n.candidates x json nowMs start) : n.Filed x json nowMs v := by
  obtain ⟨⟨key, e⟩, hp, hread⟩ := mem_filterMap.1 hv
  split_ifs at hread
  obtain ⟨bytes, hbytes, hread⟩ := bind_eq_some_iff.1 hread
  obtain ⟨env, henv⟩ := ResourceView.read_eq_some.1 hread
  exact ⟨key, e, bytes, env, mem_kvDump.1 hp, hbytes, henv⟩

/-- Keys start with the kind and the name, so that no record is missed that has a given start. -/
theorem mem_candidates_iff_of_start (hstart : start <+: v.resource.keyStart) :
    v ∈ n.candidates x json nowMs start ↔ n.Filed x json nowMs v := by
  refine ⟨filed_of_mem_candidates, ?_⟩
  rintro ⟨key, e, bytes, env, he, hbytes, henv, hread, hkey, hdigest⟩
  refine mem_filterMap.2 ⟨(key, e), mem_kvDump.2 he, ?_⟩
  rw [if_pos (hstart.trans hkey), hbytes, bind_some]
  exact ResourceView.read_eq_some.2 ⟨env, henv, hread, hkey, hdigest⟩

theorem mem_connected_of_filed (hstart : start <+: v.resource.keyStart)
    (hdigest : ∀ u w, n.Filed x json nowMs u → n.Filed x json nowMs w → u.digest = w.digest → u = w) :
    v ∈ (groupBy ResourceView.id (n.candidates x json nowMs start)).values.flatMap Node.connected ↔
      resourceLineage.Connected {w | n.Filed x json nowMs w ∧ w.id = v.id} v := by
  have hset : {w | w ∈ n.candidates x json nowMs start ∧ w.id = v.id} =
      {w | n.Filed x json nowMs w ∧ w.id = v.id} := by
    refine Set.ext fun w => and_congr_left fun hid => mem_candidates_iff_of_start ?_
    have hid' : w.resource.kind = v.resource.kind ∧ w.resource.name = v.resource.name :=
      Prod.mk.inj (toLex.injective hid)
    rw [ResourceRecord.keyStart, hid'.1, hid'.2]
    exact hstart
  rw [← hset]
  refine mem_connected (fun w hw => ?_) fun u hu w hw =>
    hdigest u w (filed_of_mem_candidates hu) (filed_of_mem_candidates hw)
  obtain ⟨key, e, bytes, env, -, -, -, hread, -⟩ := filed_of_mem_candidates hw
  exact (ResourceRecord.of_validate (readResource_eq_ok.1 hread).2).2.2.2.1

theorem Node.Keeps.filed_iff (hn : n.Keeps x json envs) :
    n.Filed x json nowMs v ↔ n.Stored x json v := by
  constructor
  · rintro ⟨key, e, b, env, he, hb, henv, hread, -, hdigest⟩
    obtain ⟨f, -, r, hf⟩ := hn key e he
    have hvalue : e.visible nowMs = some f.toBytes := by
      simp [KvEntry.visible, hf.value, hf.expires]
    cases hvalue.symm.trans hb
    obtain rfl := Except.ok.inj (hf.bytes.symm.trans henv)
    cases hf.read.symm.trans hread
    exact ⟨key, e, f, he, hf, hdigest⟩
  · rintro ⟨key, e, env, he, hold, hdigest⟩
    refine ⟨key, e, env.toBytes, env, he, ?_, hold.bytes, hold.read, ?_, hdigest⟩
    · simp [KvEntry.visible, hold.value, hold.expires]
    · rw [hold.key_eq]
      exact v.resource.keyStart_key _

theorem Node.Stored.exists_envelope (hn : n.Keeps x json envs)
    (hv : n.Stored x json v) : ∃ env ∈ envs,
      readResource x json n.operator env = .ok v.resource ∧ v.digest = hexDigest (env.digest x) := by
  obtain ⟨key, e, env, he, hold, hdigest⟩ := hv
  obtain ⟨f, hf, r, hfold⟩ := hn key e he
  have hbytes := some.inj (hold.value.symm.trans hfold.value)
  obtain rfl : env = f := by
    have := hold.bytes
    rw [hbytes, hfold.bytes] at this
    exact (Except.ok.inj this).symm
  exact ⟨env, hf, hold.read, hdigest⟩

theorem Node.Stored.eq_of_digest (hn : n.Keeps x json envs)
    (hsha : x.CollisionFree (envs.map Envelope.digestInput)) {w : ResourceView}
    (hv : n.Stored x json v) (hw : n.Stored x json w) (h : v.digest = w.digest) : v = w := by
  obtain ⟨e, he, hreade, hde⟩ := hv.exists_envelope hn
  obtain ⟨f, hf, hreadf, hdf⟩ := hw.exists_envelope hn
  have hdigest : e.digest x = f.digest x := hexDigest_injective (by rw [← hde, ← hdf, h])
  obtain rfl : e = f := Envelope.eq_of_digest_eq hsha he hf (readResource_eq_ok.1 hreade).1
    (readResource_eq_ok.1 hreadf).1 hdigest
  obtain ⟨r, d⟩ := v
  obtain ⟨q, d'⟩ := w
  obtain rfl : r = q := Except.ok.inj (hreade.symm.trans hreadf)
  obtain rfl : d = d' := h
  rfl

theorem top_of_mem_heads {kind : Option String} (h : v ∈ n.heads x json nowMs kind) :
    v ∈ n.records x json nowMs kind none ∧
      ∀ w ∈ n.records x json nowMs kind none, w.id = v.id → w.rank ≤ v.rank := by
  obtain ⟨k, hk⟩ := (mem_values _).1 h
  have htop := isTop_latestBy ResourceView.id ResourceView.rank
    (n.records x json nowMs kind none) k
  rw [hk] at htop
  obtain ⟨⟨hv, rfl⟩, hle⟩ := htop
  exact ⟨hv, fun w hw hid => hle w ⟨hw, hid⟩⟩

/-- If records of one digest are the same, the head of a resource is the one that ranks highest. -/
theorem mem_heads_iff {kind : Option String} (hdigest : ∀ u ∈ n.records x json nowMs kind none,
      ∀ w ∈ n.records x json nowMs kind none, u.digest = w.digest → u = w) :
    v ∈ n.heads x json nowMs kind ↔ v ∈ n.records x json nowMs kind none ∧
      ∀ w ∈ n.records x json nowMs kind none, w.id = v.id → w.rank ≤ v.rank := by
  refine ⟨top_of_mem_heads, ?_⟩
  have htop := isTop_latestBy ResourceView.id ResourceView.rank
    (n.records x json nowMs kind none)
  unfold Node.heads
  rw [mem_values]
  rintro ⟨hv, hle⟩
  refine ⟨v.id, ?_⟩
  have hv' := htop v.id
  cases hget : (latestBy ResourceView.id ResourceView.rank
      (n.records x json nowMs kind none)).get v.id with
  | none =>
    rw [hget] at hv'
    exact absurd (show v ∈ (∅ : Set ResourceView) from hv' ▸ ⟨hv, rfl⟩) (Set.notMem_empty v)
  | some w =>
    rw [hget] at hv'
    obtain ⟨⟨hw, hid⟩, hmax⟩ := hv'
    -- Both are highest, so they have one digest.
    have hrank : w.rank = v.rank := le_antisymm (hle w hw hid) (hmax v ⟨hv, rfl⟩)
    rw [hdigest w hw v hv (congrArg (fun r => (ofLex r).2) hrank)]

theorem isTop_head (kind name : String) : Latest.IsTop ResourceView.rank
    {w | w ∈ n.records x json nowMs (some kind) (some name) ∧ w.resource.kind = kind ∧
      w.resource.name = name} (n.head x json nowMs kind name) := by
  have htop : Latest.IsTop ResourceView.rank
      {w | w ∈ (n.records x json nowMs (some kind) (some name)).filter fun v =>
        v.resource.kind = kind ∧ v.resource.name = name} (n.head x json nowMs kind name) := by
    refine Latest.isTop_foldl_of (fun v => rfl) (fun b v => ?_) _
    dsimp only
    split_ifs with hlt
    · exact .inl ⟨rfl, hlt.le⟩
    · exact .inr ⟨rfl, not_lt.1 hlt⟩
  simpa only [mem_filter, decide_eq_true_eq] using htop

theorem top_of_head {kind name : String} (h : n.head x json nowMs kind name = some v) :
    v ∈ n.records x json nowMs (some kind) (some name) ∧ v.resource.kind = kind ∧
      v.resource.name = name ∧ ∀ w ∈ n.records x json nowMs (some kind) (some name),
        w.resource.kind = kind → w.resource.name = name → w.rank ≤ v.rank := by
  have htop : Latest.IsTop ResourceView.rank _ (n.head x json nowMs kind name) := isTop_head kind name
  rw [h] at htop
  obtain ⟨hmem, hle⟩ := htop
  exact ⟨hmem.1, hmem.2.1, hmem.2.2, fun w hw hkind hname => hle w ⟨hw, hkind, hname⟩⟩

section

variable {envs : List Envelope} (hn : n.Keeps x json envs)
  (hsha : x.CollisionFree (envs.map Envelope.digestInput)) {v : ResourceView}

include hn hsha

theorem mem_connected_candidates {start : List Char} (hstart : start <+: v.resource.keyStart) :
    v ∈ (groupBy ResourceView.id (n.candidates x json nowMs start)).values.flatMap
        Node.connected ↔ resourceLineage.Connected {w | n.Stored x json w ∧ w.id = v.id} v := by
  rw [mem_connected_of_filed hstart fun u w hu hw =>
    (hn.filed_iff.1 hu).eq_of_digest hn hsha (hn.filed_iff.1 hw)]
  simp only [hn.filed_iff]

theorem mem_resourceRecords : v ∈ n.records x json nowMs none none ↔
    resourceLineage.Connected {w | n.Stored x json w ∧ w.id = v.id} v :=
  mem_connected_candidates hn hsha nil_prefix

/-- The head of a resource is the highest record that counts. -/
theorem mem_heads : v ∈ n.heads x json nowMs none ↔ v ∈ n.records x json nowMs none none ∧
    ∀ w ∈ n.records x json nowMs none none, w.id = v.id → w.rank ≤ v.rank :=
  mem_heads_iff fun _ hu _ hw =>
    ((mem_resourceRecords hn hsha).1 hu).mem.1.eq_of_digest hn hsha
      ((mem_resourceRecords hn hsha).1 hw).mem.1

end

section

variable (hn : n.Keeps x json envs) (hm : m.Keeps x json envs)
  (hsha : x.CollisionFree (envs.map Envelope.digestInput))
  (hstored : ∀ v, m.Stored x json v ↔ n.Stored x json v)

include hn hm hsha hstored

theorem mem_resourceRecords_congr (nowMs' : ℕ) :
    v ∈ m.records x json nowMs none none ↔ v ∈ n.records x json nowMs' none none := by
  rw [mem_resourceRecords hm hsha, mem_resourceRecords hn hsha]
  simp only [hstored]

theorem mem_heads_congr (nowMs' : ℕ) :
    v ∈ m.heads x json nowMs none ↔ v ∈ n.heads x json nowMs' none := by
  rw [mem_heads hm hsha, mem_heads hn hsha]
  simp only [mem_resourceRecords_congr hn hm hsha hstored nowMs']

end

/-! ### Ingesting -/

/-- A namespace of the platform's own has no metadata. -/
theorem Node.kvPut_internal (wall : ℕ → ℕ) (disk : ℕ → Bool)
    (hns : "__rf".toList <+: ns.toList) (key : String) (value : Option Bytes)
    (expiresAtMs : Option ℕ) : (n.kvPut x wall disk ns key value expiresAtMs).1 =
      (n.kvPutEntry (wall 0) (disk 0) ns key value expiresAtMs).1 := by
  unfold Node.kvPut
  cases disk 0 with
  | false => rfl
  | true =>
    show (if "__rf".toList <+: ns.toList then _ else _ : Node × Except NodeError Unit).1 = _
    rw [if_pos hns]
    rfl

theorem ingestResource_fst (wall : ℕ → ℕ) (disk : ℕ → Bool)
    (hread : readResource x json n.operator env = .ok r) :
    (n.ingestResource x json wall disk env).1 =
      if (n.kvGet resourceNamespace (r.key (hexDigest (env.digest x))) (wall 0)).isNone then
        (n.kvPutEntry (wall 1) (disk 0) resourceNamespace (r.key (hexDigest (env.digest x)))
          (some env.toBytes) none).1 else n := by
  unfold Node.ingestResource
  rw [hread]
  dsimp only
  split_ifs with hnone
  · rw [← Node.kvPut_internal (x := x) (fun i => wall (i + 1)) disk (by decide)]
    generalize n.kvPut x _ disk resourceNamespace _ _ _ = result
    obtain ⟨m, e | u⟩ := result <;> rfl
  · rfl

/-- Ingesting writes nothing, or the envelope under a key that had none. -/
theorem ingestResource_cases (hn : n.Keeps x json envs) (wall : ℕ → ℕ)
    (disk : ℕ → Bool) (env : Envelope) : (n.ingestResource x json wall disk env).1 = n ∨
      ∃ r e, readResource x json n.operator env = .ok r ∧ e.value = some env.toBytes ∧
        e.expiresAtMs = none ∧
        n.inner.kvEntry resourceNamespace (r.key (hexDigest (env.digest x))) = none ∧
        (n.ingestResource x json wall disk env).1.manifestPart = n.manifestPart ∧
        ∀ key, (n.ingestResource x json wall disk env).1.inner.kvEntry resourceNamespace key =
          if key = r.key (hexDigest (env.digest x)) then some e
          else n.inner.kvEntry resourceNamespace key := by
  cases hread : readResource x json n.operator env with
  | error e =>
    refine .inl ?_
    unfold Node.ingestResource
    rw [hread]
  | ok r =>
    rw [ingestResource_fst wall disk hread]
    split_ifs with hnone
    · refine .inr ⟨r, ⟨(n.inner.clock.now (wall 1)).last, n.id, some env.toBytes, none⟩, rfl, rfl,
        rfl, ?_, (Node.frame_kvPutEntry _ _ _ _ _ _).1, fun key => ?_⟩
      · cases hget : n.inner.kvEntry resourceNamespace (r.key (hexDigest (env.digest x))) with
        | none => rfl
        | some e =>
          obtain ⟨f, -, q, hold⟩ := hn _ e hget
          rw [Node.kvGet_eq, hget] at hnone
          simp [KvEntry.visible, hold.value, hold.expires] at hnone
      · have hentry := n.inner.kvEntry_putKv resourceNamespace (r.key (hexDigest (env.digest x)))
          ⟨(n.inner.clock.now (wall 1)).last, n.id, some env.toBytes, none⟩ resourceNamespace key
        simp only [true_and] at hentry
        rw [← hentry]
        cases disk 0 <;> rfl
    · exact .inl rfl

theorem manifestPart_ingestResource (hn : n.Keeps x json envs) (wall : ℕ → ℕ)
    (disk : ℕ → Bool) (env : Envelope) :
    (n.ingestResource x json wall disk env).1.manifestPart = n.manifestPart := by
  rcases ingestResource_cases hn wall disk env with heq | ⟨r, e, -, -, -, -, hpart, -⟩
  · rw [heq]
  · exact hpart

theorem Node.Keeps.congr (hop : m.operator = n.operator)
    (hkv : ∀ key, m.inner.kvEntry resourceNamespace key = n.inner.kvEntry resourceNamespace key)
    (hn : n.Keeps x json envs) : m.Keeps x json envs := by
  intro key e he
  rw [hkv] at he
  rw [hop]
  exact hn key e he

theorem Node.stored_congr (hop : m.operator = n.operator)
    (hkv : ∀ key, m.inner.kvEntry resourceNamespace key = n.inner.kvEntry resourceNamespace key)
    (v : ResourceView) : m.Stored x json v ↔ n.Stored x json v := by
  unfold Node.Stored
  rw [hop]
  simp only [hkv]

section

variable {envs : List Envelope} (hn : n.Keeps x json envs) (wall : ℕ → ℕ) (disk : ℕ → Bool)
  {env : Envelope} (hbytes : Envelope.fromBytes env.toBytes = .ok env)

include hn hbytes

theorem Node.Keeps.ingestResource (henv : env ∈ envs) :
    (n.ingestResource x json wall disk env).1.Keeps x json envs := by
  rcases ingestResource_cases hn wall disk env with heq | ⟨r, e, hread, hv, hexp, -, hpart, hkv⟩
  · rw [heq]
    exact hn
  · have hop : (n.ingestResource x json wall disk env).1.operator = n.operator :=
      congrArg ManifestPart.operator hpart
    intro key f hf
    rw [hkv] at hf
    rw [hop]
    split_ifs at hf with hkey
    · cases hf
      exact ⟨env, henv, r, hread, hkey, hbytes, hv, hexp⟩
    · exact hn key f hf

theorem stored_ingestResource (v : ResourceView) :
    (n.Stored x json v → (n.ingestResource x json wall disk env).1.Stored x json v) ∧
      ((n.ingestResource x json wall disk env).1.Stored x json v → n.Stored x json v ∨
        readResource x json n.operator env = .ok v.resource ∧
          v.digest = hexDigest (env.digest x)) := by
  rcases ingestResource_cases hn wall disk env
    with heq | ⟨r, e, hread, hv, hexp, habsent, hpart, hkv⟩
  · rw [heq]
    exact ⟨id, .inl⟩
  · have hop : (n.ingestResource x json wall disk env).1.operator = n.operator :=
      congrArg ManifestPart.operator hpart
    unfold Node.Stored
    rw [hop]
    constructor
    · rintro ⟨key, f, g, hf, hold⟩
      refine ⟨key, f, g, ?_, hold⟩
      rw [hkv, if_neg fun hkey => ?_]
      · exact hf
      · rw [hkey, habsent] at hf
        cases hf
    · rintro ⟨key, f, g, hf, hold, hdigest⟩
      rw [hkv] at hf
      split_ifs at hf with hkey
      · cases hf
        have hg : g = env := by
          have hgb := hold.bytes
          rw [← some.inj (hv.symm.trans hold.value), hbytes] at hgb
          exact (Except.ok.inj hgb).symm
        rw [hg] at hold hdigest
        exact .inr ⟨hold.read, hdigest⟩
      · exact .inl ⟨key, f, g, hf, hold, hdigest⟩

end

end RandallFlare
