import RandallFlare.Claims.Order
import RandallFlare.Lib.Mirror
import RandallFlare.Node.Log

/-!
# Starting a node again

`Node::open` fills the memory of a node from its store.  Every call changes the memory first and
writes the record after that; if the write fails the call ends with an error, but the memory has the
record, and the same call made again is stale.  As long as these writes commit, the node that would
be opened is the one that runs, but for what `gc` has dropped from memory only, which is dead.

* `Durable`: memory and tables mirror each other; `Durable.step`: calls whose writes commit keep it;
* `Commits`: the writes of records commit; `Named`: the names of namespaces have no NUL;
* `Recovers`: the opened node answers as the running one; `recovers_of_commits` is the result;
* `gc_unseen`: readers do not notice a collection.
-/

namespace RandallFlare

open NodeState Node SortedMap

/-! ### The tables -/

/-- A manifest stands under its name. -/
def manifestCodec (x : Crypto) (operator : SignerId) :
    Codec String ManifestRecord String Envelope where
  enc := id
  rel := fun name r env => readManifest x operator env = .ok r ∧ r.manifest.name = name
  enc_injective := fun _ _ h => h
  functional := fun h h' => Except.ok.inj (h.1.symm.trans h'.1)

/-- A claim stands under its task and holder. -/
def claimCodec (x : Crypto) : Codec (String × PublicId) ClaimRecord String Envelope where
  enc := fun k => claimKey k.1 (SignerId.ed k.2).text
  rel := fun k r env => readClaim x env = .ok r ∧ r.claim.task = k.1 ∧ r.claim.holder = k.2
  enc_injective := fun _ _ h => Prod.ext (claimKey_injective h).1 (claimKey_injective h).2
  functional := fun h h' => Except.ok.inj (h.1.symm.trans h'.1)

/-- An entry stands under its namespace, which has no NUL, and its key. -/
def kvCodec : Codec (String × String) KvEntry String KvEntry where
  enc := fun k => kvTableKey k.1 k.2
  rel := fun k e e' => NulFree k.1 ∧ e = e'
  enc_injective := fun h h' hkey =>
    Prod.ext (kvTableKey_injective h.1 h'.1 hkey).1 (kvTableKey_injective h.1 h'.1 hkey).2
  functional := fun h h' => h.2.trans h'.2.symm

/-- The claim is not live from a time on. -/
def ClaimRecord.DeadFrom (t : ℕ) (r : ClaimRecord) : Prop :=
  ∀ nowMs, t ≤ nowMs → r.live nowMs = false

/-- The entry shows no value from a time on. -/
def KvEntry.DeadFrom (t : ℕ) (e : KvEntry) : Prop := ∀ nowMs, t ≤ nowMs → e.visible nowMs = none

/-- The manifests in memory and in the table mirror each other. -/
structure ManifestPart.Durable (x : Crypto) (operator : SignerId) (p : ManifestPart) : Prop where
  operator_eq : p.operator = operator
  memory_operator : p.memory.operator = operator
  mirrors : (manifestCodec x operator).Mirrors (fun _ => False) p.memory.get p.table

/-- The claims in memory and in the table mirror each other, but for dead ones. -/
def ClaimPart.Durable (x : Crypto) (t : ℕ) (p : ClaimPart) : Prop :=
  (claimCodec x).Mirrors (ClaimRecord.DeadFrom t) (fun k => p.memory.mine k.1 k.2) p.table

/-- The entries in memory and in the table mirror each other, but for dead ones. -/
def KvPart.Durable (t : ℕ) (p : KvPart) : Prop :=
  kvCodec.Mirrors (KvEntry.DeadFrom t) (fun k => p.memory k.1 k.2) p.table

/-- Memory and tables mirror each other. -/
structure Durable (x : Crypto) (operator : SignerId) (s : NodeState) : Prop where
  manifests : s.node.manifestPart.Durable x operator
  claims : s.node.claimPart.Durable x s.lastGc
  kv : s.node.kvPart.Durable s.lastGc

theorem durable_init (x : Crypto) (id : PublicId) (operator : SignerId) :
    Durable x operator (init id operator) where
  manifests := ⟨rfl, rfl, Codec.mirrors_empty⟩
  claims := Codec.mirrors_empty
  kv := Codec.mirrors_empty

/-! ### Writing -/

variable {x : Crypto} {operator : SignerId}

variable {env : Envelope} {t : ℕ} {p : KvPart} {s : NodeState}

theorem ManifestPart.Durable.accept {p : ManifestPart} (hp : p.Durable x operator)
    {r : ManifestRecord} (hread : readManifest x p.operator env = .ok r)
    (log : SortedMap String Envelope) : ManifestPart.Durable x operator ⟨p.operator,
      ⟨p.operator, p.memory.workers.insert r.manifest.name r⟩,
      p.table.insert r.manifest.name env, log⟩ := by
  refine ⟨hp.operator_eq, hp.operator_eq, ?_⟩
  rw [hp.operator_eq] at hread
  have hput := hp.mirrors.put (k := r.manifest.name) (v := r) (w := env) ⟨hread, rfl⟩
  have hget : (⟨p.operator, p.memory.workers.insert r.manifest.name r⟩ : ManifestSet).get =
      fun name => if name = r.manifest.name then some r else p.memory.get name :=
    funext fun name => get_insert _ _ _ _
  rw [hget]
  exact hput

theorem ClaimPart.Durable.store {p : ClaimPart} (hp : p.Durable x t)
    {r : ClaimRecord} (hread : readClaim x env = .ok r) : ClaimPart.Durable x t ⟨p.memory.store r,
      p.table.insert (claimKey r.claim.task (SignerId.ed r.claim.holder).text) env⟩ := by
  have hput := Codec.Mirrors.put hp (k := (r.claim.task, r.claim.holder)) (v := r) (w := env)
    ⟨hread, rfl, rfl⟩
  have hmine : (fun k : String × PublicId => (p.memory.store r).mine k.1 k.2) = fun k =>
      if k = (r.claim.task, r.claim.holder) then some r else p.memory.mine k.1 k.2 := by
    funext k
    rw [ClaimSet.mine_store]
    refine if_congr ?_ rfl rfl
    rw [Prod.ext_iff, eq_comm, eq_comm (a := r.claim.holder)]
  unfold ClaimPart.Durable
  rw [hmine]
  exact hput

theorem KvPart.Durable.write (hp : p.Durable t)
    {w : String × String × KvEntry} (hns : NulFree w.1) : (p.write w).Durable t := by
  have hput := Codec.Mirrors.put hp (k := (w.1, w.2.1)) (v := w.2.2) (w := w.2.2) ⟨hns, rfl⟩
  have hmemory : (fun k : String × String => (p.write w).memory k.1 k.2) = fun k =>
      if k = (w.1, w.2.1) then some w.2.2 else p.memory k.1 k.2 := by
    funext k
    have hk : k = (w.1, w.2.1) ↔ k.1 = w.1 ∧ k.2 = w.2.1 := Prod.ext_iff
    exact if_congr hk.symm rfl rfl
  unfold KvPart.Durable
  rw [hmemory]
  exact hput

/-! ### Collecting garbage -/

theorem le_saturatingAdd {a : ℕ} (b : ℕ) (ha : a < UInt64.size) : a ≤ saturatingAdd a b := by
  unfold saturatingAdd
  omega

theorem saturatingAdd_lt (a b : ℕ) : saturatingAdd a b < UInt64.size := by
  have hpos : 0 < UInt64.size := by decide
  unfold saturatingAdd
  omega

theorem ClaimPart.Durable.gc {p : ClaimPart} (hp : p.Durable x t) (nowMs horizonMs : ℕ) :
    ClaimPart.Durable x (max t nowMs) ⟨p.memory.gc nowMs horizonMs, p.table⟩ := by
  unfold ClaimPart.Durable
  simp only [ClaimSet.mine_gc]
  refine Codec.Mirrors.drop hp (fun r hr now hnow => hr now ((le_max_left _ _).trans hnow))
    fun r hkeep now hnow => ?_
  have hle := le_saturatingAdd horizonMs (saturatingAdd_lt r.claim.expiresAtMs skewSlackMs)
  simp only [ClaimRecord.live, Claim.live, Bool.and_eq_false_iff, Bool.not_eq_false',
    decide_eq_false_iff_not] at hkeep ⊢
  exact hkeep.imp_right fun hexpired => by omega

theorem KvEntry.deadFrom_of_not_keeps {e : KvEntry} {nowMs horizonMs : ℕ}
    (h : e.keeps nowMs horizonMs = false) : e.DeadFrom nowMs := by
  intro now hnow
  unfold keeps deadSince at h
  unfold visible
  cases hvalue : e.value with
  | none => rfl
  | some v =>
    rw [hvalue] at h
    cases hexp : e.expiresAtMs with
    | none =>
      rw [hexp] at h
      cases h
    | some exp =>
      rw [hexp] at h
      dsimp only at h
      split_ifs at h with hle
      simp [not_lt.2 (hle.trans hnow)]

theorem KvPart.Durable.gc (hp : p.Durable t) (nowMs horizonMs : ℕ) : KvPart.Durable (max t nowMs)
      ⟨fun ns key => (p.memory ns key).filter (KvEntry.keeps nowMs horizonMs), p.table⟩ :=
  Codec.Mirrors.drop hp (fun _ hr now hnow => hr now ((le_max_left _ _).trans hnow))
    fun _ hkeep now hnow =>
      KvEntry.deadFrom_of_not_keeps hkeep now ((le_max_right t nowMs).trans hnow)

/-! ### Calls -/

def NodeEvent.Named (ev : NodeEvent) : Prop :=
  match ev.call with
  | .kvPut ns _ _ _ | .kvPutWithMetadata ns _ _ _ _ | .kvMergeRemote ns _ => NulFree ns
  | .ingestManifest _ | .ingestClaim _ | .gc => True

/-- Every transaction that writes a manifest, a claim or an entry commits. -/
def NodeEvent.Commits (ev : NodeEvent) : Prop :=
  match ev.call with
  | .ingestManifest _ | .ingestClaim _ => ev.disk 0
  | .kvPut _ _ _ _ | .kvPutWithMetadata _ _ _ _ _ => ev.disk 0 ∧ ev.disk 1
  | .kvMergeRemote _ items => ∀ i < items.length, ev.disk i
  | .gc => True

instance (ev : NodeEvent) : Decidable ev.Named :=
  match h : ev.call with
  | .kvPut ns _ _ _ | .kvPutWithMetadata ns _ _ _ _ | .kvMergeRemote ns _ =>
      decidable_of_iff (NulFree ns) (by unfold NodeEvent.Named; rw [h])
  | .ingestManifest _ | .ingestClaim _ | .gc => .isTrue (by unfold NodeEvent.Named; rw [h]; trivial)

instance (ev : NodeEvent) : Decidable ev.Commits :=
  match h : ev.call with
  | .ingestManifest _ | .ingestClaim _ =>
      decidable_of_iff (ev.disk 0) (by unfold NodeEvent.Commits; rw [h])
  | .kvPut _ _ _ _ | .kvPutWithMetadata _ _ _ _ _ =>
      decidable_of_iff (ev.disk 0 ∧ ev.disk 1)
        (by unfold NodeEvent.Commits; rw [h])
  | .kvMergeRemote _ items =>
      decidable_of_iff (∀ i < items.length, ev.disk i)
        (by unfold NodeEvent.Commits; rw [h])
  | .gc => .isTrue (by unfold NodeEvent.Commits; rw [h]; trivial)

theorem kvPart_gc (n : Node) (nowMs : ℕ) : (n.gc nowMs).kvPart = ⟨fun ns key =>
      (n.kvPart.memory ns key).filter (KvEntry.keeps nowMs horizonMs), n.kvPart.table⟩ := by
  refine KvPart.ext (funext fun ns => funext fun key => ?_) rfl
  show (((n.inner.kv.mapValues fun m => m.gc nowMs horizonMs).get ns).getD
    Namespace.new).entry key = (((n.inner.kv.get ns).getD Namespace.new).entry key).filter _
  rw [get_mapValues]
  cases n.inner.kv.get ns with
  | none => rfl
  | some m => exact m.entry_gc nowMs horizonMs key

/-- **Readers do not notice a collection**, then or later: no value and no holder changes. -/
theorem Node.gc_unseen (n : Node) (nowMs later : ℕ) :
    (∀ ns key, (n.gc nowMs).kvGet ns key (nowMs + later) = n.kvGet ns key (nowMs + later)) ∧
      ∀ task, (n.gc nowMs).inner.claims.winner task (nowMs + later) =
        n.inner.claims.winner task (nowMs + later) := by
  refine ⟨fun ns key => ?_, fun task => ClaimSet.winner_congr fun me => ?_⟩
  · have hentry := congrFun₂ (congrArg KvPart.memory (kvPart_gc n nowMs)) ns key
    simp only [kvPart] at hentry
    rw [kvGet_eq, kvGet_eq, hentry]
    cases n.inner.kvEntry ns key with
    | none => rfl
    | some e =>
      cases hkeep : e.keeps nowMs horizonMs
      · have hdead := KvEntry.deadFrom_of_not_keeps hkeep (nowMs + later) (Nat.le_add_right _ _)
        simp [Option.filter, hkeep, hdead]
      · simp [Option.filter, hkeep]
  · show ((n.inner.claims.gc nowMs horizonMs).mine task me).filter _ = _
    rw [ClaimSet.mine_gc, Option.filter_filter]
    refine congrArg (Option.filter · _) (funext fun r => ?_)
    have hle := le_saturatingAdd horizonMs (saturatingAdd_lt r.claim.expiresAtMs skewSlackMs)
    cases hrel : r.claim.released <;> simp [ClaimRecord.live, Claim.live, hrel]
    omega

theorem KvPart.Durable.writes (hp : p.Durable t)
    {ws : List (String × String × KvEntry)} (hws : ∀ w ∈ ws, NulFree w.1) :
    (ws.foldl KvPart.write p).Durable t :=
  Runs.foldl_invariant hp fun _ w hw hq => hq.write (hws w hw)

theorem Durable.of_writes (hs : Durable x operator s) {n : Node}
    (hframe : n.manifestPart = s.node.manifestPart ∧ n.claimPart = s.node.claimPart)
    (hkv : ∃ ws : List (String × String × KvEntry), (∀ w ∈ ws, NulFree w.1) ∧
      n.kvPart = ws.foldl KvPart.write s.node.kvPart) : Durable x operator ⟨n, s.lastGc⟩ := by
  obtain ⟨ws, hws, heq⟩ := hkv
  exact ⟨(congrArg (ManifestPart.Durable x operator) hframe.1).mpr hs.manifests,
    (congrArg (ClaimPart.Durable x s.lastGc) hframe.2).mpr hs.claims,
    (congrArg (KvPart.Durable s.lastGc) heq).mpr (hs.kv.writes hws)⟩

theorem Durable.step {t : NodeState} {ev : NodeEvent} (hs : Durable x operator s)
    (hname : ev.Named) (hcommit : ev.Commits) (hstep : s.step x ev = some t) :
    Durable x operator t := by
  cases hstep
  obtain ⟨call, wall, disk⟩ := ev
  cases call with
  | ingestManifest env =>
    obtain ⟨hclaims, hkv⟩ := s.node.frame_ingestManifest x disk env
    refine ⟨?_, (congrArg (ClaimPart.Durable x s.lastGc) hclaims).mpr hs.claims,
      (congrArg (KvPart.Durable s.lastGc) hkv).mpr hs.kv⟩
    have hop := hs.manifests.memory_operator.trans hs.manifests.operator_eq.symm
    rcases s.node.manifestPart_ingestManifest x disk env hop with heq | ⟨r, hread, -, heq⟩
    · exact (congrArg (ManifestPart.Durable x operator) heq).mpr hs.manifests
    · have hdisk : disk 0 := hcommit
      rw [if_pos hdisk] at heq
      exact (congrArg (ManifestPart.Durable x operator) heq).mpr (hs.manifests.accept hread _)
  | ingestClaim env =>
    obtain ⟨hmanifests, hkv⟩ := s.node.frame_ingestClaim x wall disk env
    refine ⟨(congrArg (ManifestPart.Durable x operator) hmanifests).mpr hs.manifests, ?_,
      (congrArg (KvPart.Durable s.lastGc) hkv).mpr hs.kv⟩
    rcases s.node.claimPart_ingestClaim x wall disk env with heq | ⟨r, hread, heq⟩
    · exact (congrArg (ClaimPart.Durable x s.lastGc) heq).mpr hs.claims
    · have hdisk : disk 0 := hcommit
      rw [if_pos hdisk] at heq
      exact (congrArg (ClaimPart.Durable x s.lastGc) heq).mpr (hs.claims.store hread)
  | gc =>
    refine ⟨hs.manifests, hs.claims.gc (wall 0) horizonMs, ?_⟩
    exact (congrArg (KvPart.Durable _) (kvPart_gc s.node (wall 0))).mpr
      (hs.kv.gc (wall 0) horizonMs)
  | kvPut ns key value exp =>
    exact hs.of_writes (frame_kv (by simp) (by simp) (by simp))
      (kvPart_kvPut hname key value exp hcommit.1 hcommit.2)
  | kvPutWithMetadata ns key value exp metadata =>
    exact hs.of_writes (frame_kv (by simp) (by simp) (by simp))
      (kvPart_kvPutWithMetadata hname key value exp metadata hcommit.1 hcommit.2)
  | kvMergeRemote ns items =>
    refine hs.of_writes (frame_kv (by simp) (by simp) (by simp))
      (kvPart_kvMergeFrom hname ?_)
    rw [Nat.zero_add]
    exact hcommit

/-! ### Opening the store -/

theorem hydrate_manifests {p : ManifestPart} (hp : p.Durable x operator) (name : String)
    (r : ManifestRecord) :
    ((ManifestSet.new operator).ingestAll x p.table.values).get name = some r ↔
      ∃ env, p.table.get name = some env ∧ (manifestCodec x operator).rel name r env := by
  have hfold : (ManifestSet.new operator).ingestAll x p.table.values =
      p.table.entries.foldl (fun s q => (s.ingest x q.2).1) (ManifestSet.new operator) :=
    List.foldl_map
  rw [hfold]
  refine hp.mirrors.get_hydrate ManifestSet.get _ (fun s => s.operator = operator) ?_ rfl
    fun _ => rfl
  rintro s name env k r hs rfl ⟨hread, rfl⟩ hnone
  rw [← hs] at hread
  refine ⟨(ManifestSet.operator_ingest x s env).trans hs, fun name => ?_⟩
  rw [ManifestSet.get_ingest hread]
  refine if_ctx_congr Iff.rfl (fun hname => ?_) fun _ => rfl
  rw [hname, hnone]
  rfl

theorem hydrate_claims {p : ClaimPart} (hp : p.Durable x t) (k : String × PublicId)
    (r : ClaimRecord) : (ClaimSet.new.ingestAll x p.table.values).mine k.1 k.2 = some r ↔
      ∃ env, p.table.get (claimKey k.1 (SignerId.ed k.2).text) = some env ∧
        (claimCodec x).rel k r env := by
  have hfold : ClaimSet.new.ingestAll x p.table.values =
      p.table.entries.foldl (fun s q => (s.ingest x q.2).1) ClaimSet.new := List.foldl_map
  rw [hfold]
  refine Codec.Mirrors.get_hydrate hp (fun (s : ClaimSet) k => s.mine k.1 k.2) _ (fun _ => True)
    (s := ClaimSet.new) ?_ trivial fun _ => rfl
  rintro s key env ⟨task, me⟩ r - - ⟨hread, rfl, rfl⟩ hnone
  refine ⟨trivial, fun k => ?_⟩
  have hstore : (s.ingest x env).1 = s.store r := by
    unfold ClaimSet.ingest
    rw [hread]
    dsimp only
    rw [hnone]
    rfl
  rw [hstore, ClaimSet.mine_store]
  refine if_congr ?_ rfl rfl
  rw [Prod.ext_iff, eq_comm, eq_comm (a := r.claim.holder)]

/-- Load an entry of the table. -/
def hydrateKv (x : Crypto) (wallMs : ℕ) (inner : Inner) (p : String × KvEntry) : Inner :=
  match NodeStore.splitKey p with
  | .ok item =>
      let merged := (inner.mergeKv x item.1 item.2.1 item.2.2).1
      { merged with clock := inner.clock.observe item.2.2.hlc wallMs }
  | .error _ => inner

theorem splitKey_kvTableKey {ns : String} (h : NulFree ns) (key : String) (e : KvEntry) :
    NodeStore.splitKey (kvTableKey ns key, e) = .ok (ns, key, e) := by
  unfold NodeStore.splitKey
  rw [splitOnce_kvTableKey h]
  simp

theorem hydrate_kv (hp : p.Durable t) (wallMs : ℕ) {inner : Inner}
    (hempty : inner.kv = empty) (k : String × String) (e : KvEntry) :
    (p.table.entries.foldl (hydrateKv x wallMs) inner).kvEntry k.1 k.2 = some e ↔
      ∃ w, p.table.get (kvTableKey k.1 k.2) = some w ∧ kvCodec.rel k e w := by
  have hnone : ∀ k : String × String, inner.kvEntry k.1 k.2 = none := fun k => by
    unfold Inner.kvEntry Inner.namespaceOf
    rw [hempty]
    rfl
  refine Codec.Mirrors.get_hydrate hp (fun (inner : Inner) k => inner.kvEntry k.1 k.2) _
    (fun _ => True) ?_ trivial hnone
  rintro inner key w ⟨ns, key'⟩ e - rfl ⟨hns, rfl⟩ hnone
  refine ⟨trivial, fun k => ?_⟩
  have hload : hydrateKv x wallMs inner (kvTableKey ns key', e) =
      { (inner.mergeKv x ns key' e).1 with clock := inner.clock.observe e.hlc wallMs } := by
    unfold hydrateKv
    rw [splitKey_kvTableKey hns]
  have happlied : (inner.mergeKv x ns key' e).2 := by
    show ((inner.namespaceOf ns).merge (valueHash x) key' e).2
    unfold Namespace.merge
    rw [show (inner.namespaceOf ns).entry key' = none from hnone]
  show (hydrateKv x wallMs inner (kvTableKey ns key', e)).kvEntry k.1 k.2 = _
  rw [hload]
  show (inner.mergeKv x ns key' e).1.kvEntry k.1 k.2 = _
  rw [Inner.kvEntry_mergeKv, if_pos happlied, Inner.kvEntry_putKv]
  have hk : k = (ns, key') ↔ k.1 = ns ∧ k.2 = key' := Prod.ext_iff
  exact if_congr hk.symm rfl rfl

/-- The node opened from the store answers as the running one: the same manifests, and from the time
of the last collection on the same holder for every task and the same value for every key. -/
def Recovers (x : Crypto) (s : NodeState) : Prop :=
  ∀ wallMs, ∃ m, openStore x s.node.id s.node.operator s.node.store wallMs = .ok m ∧
    (∀ name, m.inner.manifests.get name = s.node.inner.manifests.get name) ∧
    (∀ task nowMs, s.lastGc ≤ nowMs →
      m.inner.claims.winner task nowMs = s.node.inner.claims.winner task nowMs) ∧
    ∀ ns key nowMs, s.lastGc ≤ nowMs → m.kvGet ns key nowMs = s.node.kvGet ns key nowMs

theorem openStore_eq (hp : p.Durable t) (id : PublicId) {store : NodeStore}
    (hkv : store.kv = p.table) (wallMs : ℕ) :
    openStore x id operator store wallMs = .ok ⟨id, operator,
      store.kv.entries.foldl (hydrateKv x wallMs) ⟨Clock.new,
        ClaimSet.new.ingestAll x store.claims.values,
        (ManifestSet.new operator).ingestAll x store.manifests.values, empty⟩, store⟩ := by
  have hkeys : ∀ q ∈ store.kv.entries, ∃ item, NodeStore.splitKey q = .ok item := by
    rw [hkv]
    intro q hq
    obtain ⟨k, e, hk, hns, -⟩ := Codec.Mirrors.entry hp q.1 q.2 ((get_eq_some_iff _).2 hq)
    exact ⟨(k.1, k.2, q.2), (congrArg (fun t => NodeStore.splitKey (t, q.2)) hk).trans
      (splitKey_kvTableKey hns k.2 q.2)⟩
  obtain ⟨items, hitems⟩ := Fallible.exists_mapM hkeys
  have hload : store.loadKv = .ok items := hitems
  unfold openStore
  rw [hload]
  refine congrArg (fun inner => Except.ok (mk id operator inner store))
    ((Fallible.foldl_mapM hitems _).trans (congrFun (congrArg₂ List.foldl ?_ rfl) _))
  funext inner q
  unfold hydrateKv
  cases NodeStore.splitKey q with
  | ok item => rfl
  | error e => rfl

theorem hydrateKv_frame (wallMs : ℕ) (inner : Inner) (l : List (String × KvEntry)) :
    (l.foldl (hydrateKv x wallMs) inner).manifests = inner.manifests ∧
      (l.foldl (hydrateKv x wallMs) inner).claims = inner.claims := by
  refine Runs.foldl_invariant (P := fun i : Inner =>
    i.manifests = inner.manifests ∧ i.claims = inner.claims) ⟨rfl, rfl⟩ fun i q _ hi => ?_
  unfold hydrateKv
  cases NodeStore.splitKey q with
  | ok item => exact hi
  | error e => exact hi

theorem Durable.recovers (hs : Durable x operator s) : Recovers x s := by
  intro wallMs
  have hop : s.node.operator = operator := hs.manifests.operator_eq
  refine ⟨_, openStore_eq hs.kv s.node.id rfl wallMs, fun name => ?_, fun task nowMs hnow => ?_,
    fun ns key nowMs hnow => ?_⟩
  · dsimp only
    rw [(hydrateKv_frame _ _ _).1, hop]
    exact hs.manifests.mirrors.view_rebuilt (hydrate_manifests hs.manifests) id
      (fun _ hdead => hdead.elim) name
  · dsimp only
    rw [(hydrateKv_frame _ _ _).2]
    exact ClaimSet.winner_congr fun me => Codec.Mirrors.view_rebuilt hs.claims
      (hydrate_claims hs.claims) (Option.filter (·.live nowMs))
      (fun r hdead => by simp [hdead nowMs hnow]) (task, me)
  · rw [kvGet_eq, kvGet_eq]
    exact Codec.Mirrors.view_rebuilt hs.kv (hydrate_kv hs.kv wallMs rfl)
      (fun o => o.bind fun e => e.visible nowMs) (fun e hdead => hdead nowMs hnow) (ns, key)

/-! ### Runs -/

/-- **The store has what the memory has**: in every run in which the writes of records commit, the
node that would be opened answers as the running one, whatever happens to the log. -/
theorem recovers_of_commits (x : Crypto) (id : PublicId) (operator : SignerId)
    (evs : List NodeEvent) (s : NodeState)
    (hcommits : Runs.Meets (step x) (fun _ ev => ev.Named ∧ ev.Commits) (init id operator) evs)
    (hrun : Runs.run (step x) (init id operator) evs = some s) : Recovers x s :=
  Durable.recovers (Runs.run_invariant (P := Durable x operator)
    (fun _ _ _ hs hev hstep => hs.step hev.1 hev.2 hstep) (durable_init x id operator)
    hcommits hrun)

/-- Every call, the first with a log that cannot be written, and a collection at the end. -/
def committedRun : List NodeEvent :=
  [⟨.ingestManifest (sampleDeploy 1 none "a"), fun _ => 1000, fun i => i == 0⟩,
    ⟨.ingestManifest (sampleDeploy 1 none "a"), fun _ => 1000, fun _ => true⟩,
    ⟨.ingestClaim (sampleClaim firstHold), fun _ => 1000, fun _ => true⟩,
    ⟨.kvPut "n" "k" (some [1]) (some 5000), fun _ => 2000, fun _ => true⟩,
    ⟨.kvPutWithMetadata "n" "l" (some [2]) none (some [3]), fun _ => 3000, fun _ => true⟩,
    ⟨.kvMergeRemote "n" [("m", ⟨⟨2500, 0⟩, sampleHolder 2, some [4], none⟩)], fun _ => 4000,
      fun _ => true⟩,
    ⟨.gc, fun _ => 200000000, fun _ => true⟩]

/-- The collection drops the claim and the key that have expired, from memory only. -/
theorem recovers_committedRun : ∃ s, Runs.run (step sampleCrypto) (init ⟨0⟩ sampleOperator)
        committedRun = some s ∧
      s.node.inner.kvEntry "n" "k" = none ∧ s.node.kvGet "n" "m" 200000000 = some [4] ∧
      Recovers sampleCrypto s :=
  ⟨_, rfl, by decide +kernel, by decide +kernel,
    recovers_of_commits sampleCrypto ⟨0⟩ sampleOperator committedRun _ (by decide +kernel) rfl⟩

/-- A manifest whose first write fails; the call is made again. -/
def unwrittenRun : List NodeEvent :=
  [⟨.ingestManifest (sampleDeploy 1 none "a"), fun _ => 1000, fun _ => false⟩,
    ingestEvent (sampleDeploy 1 none "a")]

/-- The second call is stale: memory has the manifest and the store never gets it. -/
theorem unwrittenRun_loses : ∃ s, Runs.run (step sampleCrypto) (init ⟨0⟩ sampleOperator)
        unwrittenRun = some s ∧ ¬ Recovers sampleCrypto s := by
  obtain ⟨s, hs, hheld, hopened⟩ :
      ∃ s ∈ Runs.run (step sampleCrypto) (init ⟨0⟩ sampleOperator) unwrittenRun,
      (s.node.inner.manifests.get "w").isSome ∧
      ∀ m ∈ (openStore sampleCrypto s.node.id s.node.operator s.node.store 0).toOption,
        m.inner.manifests.get "w" = none := by
    decide +kernel
  refine ⟨s, hs, fun h => ?_⟩
  obtain ⟨m, hopen, hmanifests, -⟩ := h 0
  rw [← hmanifests "w", hopened m (by rw [hopen]; rfl)] at hheld
  cases hheld

end RandallFlare
