import RandallFlare.Platform.Quota

/-!
# Owners of public hostnames

The operator's writes reach a node one after the other; each is checked against what the node has
and then ingested.  A record whose predecessor is not there passes the check and is stored, but it
is no head and its hostnames count as free.  Once the predecessor comes it is a head, and a second
owner of what was given away meanwhile.  If the live records that own hostnames come after their
predecessors, every hostname has one owner.

* `Node.submit`: a write is checked and ingested;
* `Owns`, `OneOwner`: who owns a hostname, and that nobody else does;
* `Routed.step`: such writes keep every hostname with one owner; `oneOwner_of_links` is the result.
-/

namespace RandallFlare

open PlatformEnv Envelope Node Runs List

/-! ### Writes -/

/-- Why a write is refused or fails. -/
inductive SubmitError
  | envelope (e : EnvelopeError)
  | refused (message : String)
  | node (e : NodeError)
  | resource (e : ResourceError)

/-- What the operator sends. -/
inductive Write
  | manifest (body : Bytes)
  | resource (body : Bytes)

/-- A write, the readings of the wall clock it gets and which of its transactions commit. -/
structure WriteEvent where
  write : Write
  wall : ℕ → ℕ
  disk : ℕ → Bool

namespace Node

variable (p : PlatformEnv)

/-- `ingest_manifest_envelope`. -/
def submitManifest (n : Node) (wall : ℕ → ℕ) (disk : ℕ → Bool) (env : Envelope) :
    Node × Except SubmitError Bool :=
  match env.openPayload p.crypto WorkerManifest.decoder (some n.operator) with
  | .error e => (n, .error (.envelope e))
  | .ok m => match p.validateManifestAdmission n (wall 0) m with
      | .error message => (n, .error (.refused message))
      | .ok () =>
          let result := n.ingestManifest p.crypto disk env
          (result.1, result.2.mapError .node)

/-- `ingest_resource_envelope`, with the check of `quota.rs`. -/
def submitResource (n : Node) (wall : ℕ → ℕ) (disk : ℕ → Bool) (env : Envelope) :
    Node × Except SubmitError ResourceRecord :=
  match env.openPayload p.crypto ResourceRecord.decoder (some n.operator) with
  | .error e => (n, .error (.envelope e))
  | .ok r => match p.validateResourceAdmission n (wall 0) r with
      | .error message => (n, .error (.refused message))
      | .ok () =>
          let result := n.ingestResource p.crypto p.json (fun i => wall (i + 1)) disk env
          (result.1, result.2.mapError .resource)

/-- The node after a write, whatever it answers. -/
def afterWrite (n : Node) (ev : WriteEvent) : Node :=
  match ev.write with
  | .manifest body => match fromBytes body with
      | .ok env => (n.submitManifest p ev.wall ev.disk env).1
      | .error _ => n
  | .resource body => match fromBytes body with
      | .ok env => (n.submitResource p ev.wall ev.disk env).1
      | .error _ => n

def submit (n : Node) (ev : WriteEvent) : Option Node := some (n.afterWrite p ev)

/-- A live record that owns hostnames is of version 1, or links one that counts. -/
def links (n : Node) (nowMs : ℕ) (r : ResourceRecord) : Bool :=
  r.deleted || !routedKinds.contains r.kind || r.version == 1 ||
    (n.records p.crypto p.json nowMs none none).any fun v =>
      v.resource.kind == r.kind && v.resource.name == r.name &&
        r.prev.map hexDigest == some v.digest && r.version == v.resource.version + 1

/-- The record of the write, if there is one, links one that counts. -/
def linksWrite (n : Node) (ev : WriteEvent) : Bool :=
  match ev.write with
  | .manifest _ => true
  | .resource body => match fromBytes body with
      | .error _ => true
      | .ok env => match readResource p.crypto p.json n.operator env with
          | .error _ => true
          | .ok r => n.links p (ev.wall 0) r

end Node

/-! ### Owners -/

/-- Who can own a hostname. -/
inductive Owner
  | worker (name : String)
  | resource (kind name : String)
  deriving DecidableEq

/-- The hostname is a live worker's, or a live resource's. -/
def Owns (p : PlatformEnv) (n : Node) (nowMs : ℕ) : Owner → String → Prop
  | .worker name, h => ∃ m ∈ n.liveManifests, m.name = name ∧
      h ∈ m.hostnames ++ (p.defaultWorkerHostname m.name).toList
  | .resource kind name, h => ∃ v ∈ n.heads p.crypto p.json nowMs none,
      v.resource.deleted = false ∧ v.resource.kind = kind ∧ v.resource.name = name ∧
      ∃ label hostnames, p.routingResourceHostnames v.resource = .ok (some (label, hostnames)) ∧
        h ∈ hostnames

/-- No hostname has two owners. -/
def OneOwner (p : PlatformEnv) (n : Node) : Prop :=
  ∀ nowMs o o' h, Owns p n nowMs o h → Owns p n nowMs o' h → o = o'

variable {p : PlatformEnv} {n m : Node} {w : WorkerManifest} {env : Envelope}

theorem OneOwner.give (hn : OneOwner p n) (c : Owner) (given : String → Prop)
    (hnew : ∀ nowMs o h, Owns p m nowMs o h → Owns p n nowMs o h ∨ o = c ∧ given h)
    (hfree : ∀ nowMs o h, given h → Owns p n nowMs o h → o = c) : OneOwner p m := by
  intro nowMs o o' h ho ho'
  rcases hnew nowMs o h ho with hold | ⟨rfl, hh⟩
  · rcases hnew nowMs o' h ho' with hold' | ⟨rfl, hh⟩
    · exact hn nowMs o o' h hold hold'
    · exact hfree nowMs o h hh hold
  · rcases hnew nowMs o' h ho' with hold' | ⟨rfl, -⟩
    · exact (hfree nowMs o' h hh hold').symm
    · rfl

/-- What a node keeps to between writes. -/
structure Routed (p : PlatformEnv) (envs : List Envelope) (n : Node) : Prop where
  operator : n.inner.manifests.operator = n.operator
  keeps : n.Keeps p.crypto p.json envs
  /-- Live records that own hostnames count. -/
  linked : ∀ v, n.Stored p.crypto p.json v → v.resource.deleted = false →
    v.resource.kind ∈ routedKinds →
    resourceLineage.Connected {w | n.Stored p.crypto p.json w ∧ w.id = v.id} v
  oneOwner : OneOwner p n

theorem routed_new (p : PlatformEnv) (envs : List Envelope) (id : PublicId) (operator : SignerId) :
    Routed p envs (new id operator) where
  operator := rfl
  keeps := fun key e h => by cases h
  linked := fun v hv => by
    obtain ⟨key, e, env, he, -⟩ := hv
    cases he
  oneOwner := fun nowMs o o' h ho => by
    cases o with
    | worker name =>
      obtain ⟨m, hm, -⟩ := ho
      cases hm
    | resource kind name =>
      obtain ⟨v, hv, -⟩ := ho
      cases hv

/-! ### Manifests -/

theorem liveManifests_ingestManifest {x : Crypto} (disk : ℕ → Bool)
    (hop : n.inner.manifests.operator = n.operator)
    (hopen : env.openPayload x WorkerManifest.decoder (some n.operator) = .ok w) :
    (n.ingestManifest x disk env).1.operator = n.operator ∧
      (n.ingestManifest x disk env).1.inner.manifests.operator =
        (n.ingestManifest x disk env).1.operator ∧
      ∀ w' ∈ (n.ingestManifest x disk env).1.liveManifests,
        w' ∈ n.liveManifests ∨ w' = w ∧ w.deleted = false := by
  have hpart := n.manifestPart_ingestManifest x disk env hop
  generalize (n.ingestManifest x disk env).1 = m at hpart ⊢
  rcases hpart with heq | ⟨r, hread, -, heq⟩
  · have hmop : m.operator = n.operator := congrArg ManifestPart.operator heq
    have hmem : m.inner.manifests = n.inner.manifests := congrArg ManifestPart.memory heq
    refine ⟨hmop, by rw [hmem, hmop, hop], fun w' hw' => .inl ?_⟩
    rwa [liveManifests, hmem] at hw'
  · have hmop : m.operator = n.operator := congrArg ManifestPart.operator heq
    have hmem : m.inner.manifests = ⟨n.operator,
      n.inner.manifests.workers.insert r.manifest.name r⟩ := congrArg ManifestPart.memory heq
    have hw := openPayload_of_openManifest (readManifest_eq_ok hread).1
    obtain rfl : w = r.manifest := Except.ok.inj (hopen.symm.trans hw)
    refine ⟨hmop, by rw [hmem, hmop], fun w' hw' => ?_⟩
    simp only [liveManifests, hmem, mem_filter, mem_map, SortedMap.mem_values,
      SortedMap.get_insert, Bool.not_eq_true'] at hw' ⊢
    obtain ⟨⟨q, ⟨k, hk⟩, rfl⟩, hdeleted⟩ := hw'
    split_ifs at hk with hname
    · cases hk
      exact .inr ⟨rfl, hdeleted⟩
    · exact .inl ⟨⟨q, ⟨k, hk⟩, rfl⟩, hdeleted⟩

section

variable {envs : List Envelope} (hn : Routed p envs n)
  (hsha : p.crypto.CollisionFree (envs.map digestInput))

include hn hsha

variable {nowMs : ℕ} {v : ResourceView} {nowMs' : ℕ} {o : Owner} {h : String} {r : ResourceRecord}

theorem Routed.heads_congr (hop : m.operator = n.operator)
    (hkv : ∀ key, m.inner.kvEntry resourceNamespace key = n.inner.kvEntry resourceNamespace key)
    (nowMs' : ℕ) :
    v ∈ m.heads p.crypto p.json nowMs none ↔ v ∈ n.heads p.crypto p.json nowMs' none :=
  mem_heads_congr hn.keeps (hn.keeps.congr hop hkv) hsha (stored_congr hop hkv) nowMs'

theorem Routed.free_of_manifest
    (hok : p.validateManifestAdmission n nowMs w = .ok ()) (hlive : w.deleted = false)
    (hh : h ∈ w.hostnames ++ (p.defaultWorkerHostname w.name).toList)
    (ho : Owns p n nowMs' o h) : o = .worker w.name := by
  have hcand : p.candidateHostnames (some w) none = .ok (some (ownerText "Worker" w.name,
      w.hostnames ++ (p.defaultWorkerHostname w.name).toList)) := by
    unfold candidateHostnames
    rw [Option.filter_some, if_pos (by simp [hlive])]
  obtain ⟨hworkers, hheads⟩ := notMem_of_validateRouting
    (validateRouting_of_manifest hok hlive) hcand hh
  cases o with
  | worker name =>
    obtain ⟨w', hw', rfl, hmem⟩ := ho
    by_contra hne
    exact hworkers w' hw' (fun heq => hne (congrArg Owner.worker (Option.some.inj heq).symm)) hmem
  | resource kind name =>
    obtain ⟨v, hv, hvlive, -, -, label, hostnames, hrouted, hmem⟩ := ho
    have hv' := (hn.heads_congr hsha rfl (fun _ => rfl) nowMs).1 hv
    exact absurd hmem (hheads v hv' hvlive rfl label hostnames hrouted)

theorem Routed.submitManifest (wall : ℕ → ℕ) (disk : ℕ → Bool) (env : Envelope) :
    Routed p envs (n.submitManifest p wall disk env).1 := by
  unfold Node.submitManifest
  cases hopen : env.openPayload p.crypto WorkerManifest.decoder (some n.operator) with
  | error e => exact hn
  | ok w =>
    dsimp only
    cases hok : p.validateManifestAdmission n (wall 0) w with
    | error message => exact hn
    | ok u =>
      dsimp only
      obtain ⟨-, hkvPart⟩ := n.frame_ingestManifest p.crypto disk env
      obtain ⟨hop, hmop, hlive⟩ := liveManifests_ingestManifest disk hn.operator hopen
      generalize (n.ingestManifest p.crypto disk env).1 = m at hkvPart hop hmop hlive ⊢
      have hkv : ∀ key, m.inner.kvEntry resourceNamespace key =
          n.inner.kvEntry resourceNamespace key := fun key =>
        congrArg (fun q : KvPart => q.memory resourceNamespace key) hkvPart
      refine ⟨hmop, hn.keeps.congr hop hkv, fun v hv => ?_, ?_⟩
      · simp only [stored_congr hop hkv] at hv ⊢
        exact hn.linked v hv
      · refine hn.oneOwner.give (.worker w.name) (fun h => w.deleted = false ∧
          h ∈ w.hostnames ++ (p.defaultWorkerHostname w.name).toList) (fun nowMs o h ho => ?_)
          fun nowMs o h hgiven => hn.free_of_manifest hsha hok hgiven.1 hgiven.2
        cases o with
        | worker name =>
          obtain ⟨w', hw', rfl, hh⟩ := ho
          rcases hlive w' hw' with hold | ⟨rfl, hdeleted⟩
          · exact .inl ⟨w', hold, rfl, hh⟩
          · exact .inr ⟨rfl, hdeleted, hh⟩
        | resource kind name =>
          obtain ⟨v, hv, hrest⟩ := ho
          exact .inl ⟨v, (hn.heads_congr hsha hop hkv nowMs).1 hv, hrest⟩

/-! ### Resources -/

theorem Routed.free_of_resource
    (hok : p.validateResourceAdmission n nowMs r = .ok ()) (hlive : r.deleted = false)
    {label : String} {hostnames : List String}
    (hrouting : p.routingResourceHostnames r = .ok (some (label, hostnames))) (hh : h ∈ hostnames)
    (ho : Owns p n nowMs' o h) : o = .resource r.kind r.name := by
  have hcand : p.candidateHostnames none (some r) = .ok (some (label, hostnames)) := by
    unfold candidateHostnames
    rw [Option.filter_none, Option.filter_some, if_pos (by simp [hlive])]
    exact hrouting
  obtain ⟨hworkers, hheads⟩ := notMem_of_validateRouting
    (validateRouting_of_resource hok hlive (kind_of_routing hrouting))
    hcand hh
  cases o with
  | worker name =>
    obtain ⟨w, hw, -, hmem⟩ := ho
    exact absurd hmem (hworkers w hw (by simp))
  | resource kind name =>
    obtain ⟨v, hv, hvlive, rfl, rfl, label', hostnames', hrouted, hmem⟩ := ho
    by_contra hne
    have hv' := (hn.heads_congr hsha rfl (fun _ => rfl) nowMs).1 hv
    refine hheads v hv' hvlive ?_ label' hostnames' hrouted hmem
    unfold replacedBy
    rw [Option.any_some, Bool.and_eq_false_iff, beq_eq_false_iff_ne, beq_eq_false_iff_ne,
      ← not_and_or]
    rintro ⟨hkind, hname⟩
    exact hne (by rw [hkind, hname])

theorem Routed.mem_heads_of_grow (hm : m.Keeps p.crypto p.json envs)
    (hold : ∀ v, n.Stored p.crypto p.json v → m.Stored p.crypto p.json v)
    (hnew : ∀ v, m.Stored p.crypto p.json v → n.Stored p.crypto p.json v ∨ v.resource = r)
    (hv : v ∈ m.heads p.crypto p.json nowMs none)
    (hlive : v.resource.deleted = false) (hkind : v.resource.kind ∈ routedKinds) :
    v ∈ n.heads p.crypto p.json nowMs none ∨ v.resource = r := by
  obtain ⟨hrecord, htop⟩ := (mem_heads hm hsha).1 hv
  rcases hnew v ((mem_resourceRecords hm hsha).1 hrecord).mem.1 with hstored | hr
  · refine .inl ((mem_heads hn.keeps hsha).2 ⟨?_, fun w hw => htop w ?_⟩)
    · exact (mem_resourceRecords hn.keeps hsha).2 (hn.linked v hstored hlive hkind)
    · -- What counted still counts.
      refine (mem_resourceRecords hm hsha).2 (((mem_resourceRecords hn.keeps hsha).1 hw).mono ?_)
      exact fun u hu => ⟨hold u hu.1, hu.2⟩
  · exact .inr hr

theorem Routed.connected_of_links
    (hold : ∀ v, n.Stored p.crypto p.json v → m.Stored p.crypto p.json v)
    (hlinks : n.links p nowMs v.resource)
    (hval : v.resource.validate p.json = .ok ()) (hv : m.Stored p.crypto p.json v)
    (hlive : v.resource.deleted = false) (hkind : v.resource.kind ∈ routedKinds) :
    resourceLineage.Connected {w | m.Stored p.crypto p.json w ∧ w.id = v.id} v := by
  simp only [links, hlive, contains_iff_mem.2 hkind, Bool.not_true, Bool.or_false,
    Bool.false_or, Bool.or_eq_true, beq_iff_eq, any_eq_true, Bool.and_eq_true] at hlinks
  rcases hlinks with hone | ⟨w, hw, ⟨⟨hkind', hname⟩, hprev⟩, hversion⟩
  · have hprev := (ResourceRecord.of_validate hval).2.2.2.2.1 hone
    exact .first ⟨hv, rfl⟩ hone (by simp [resourceLineage, hprev])
  · have hid : w.id = v.id := congrArg toLex (Prod.ext hkind' hname)
    refine .next ⟨hv, rfl⟩ (((mem_resourceRecords hn.keeps hsha).1 hw).mono ?_) hprev hversion
    exact fun u hu => ⟨hold u hu.1, hu.2.trans hid⟩

theorem Routed.submitResource (wall : ℕ → ℕ) (disk : ℕ → Bool) (henv : env ∈ envs)
    (hbytes : fromBytes env.toBytes = .ok env)
    (hlinks : ∀ r, readResource p.crypto p.json n.operator env = .ok r →
      n.links p (wall 0) r) : Routed p envs (n.submitResource p wall disk env).1 := by
  unfold Node.submitResource
  cases hopen : env.openPayload p.crypto ResourceRecord.decoder (some n.operator) with
  | error e => exact hn
  | ok r =>
    dsimp only
    cases hok : p.validateResourceAdmission n (wall 0) r with
    | error message => exact hn
    | ok u =>
      dsimp only
      obtain ⟨_, hval, -⟩ := Fallible.bind_eq_ok.1 hok
      have hread := readResource_eq_ok.2 ⟨hopen, hval⟩
      have hpart := manifestPart_ingestResource hn.keeps (fun i => wall (i + 1)) disk env
      have hkeeps := hn.keeps.ingestResource (fun i => wall (i + 1)) disk hbytes henv
      have hstored := stored_ingestResource hn.keeps (fun i => wall (i + 1)) disk hbytes
      generalize (n.ingestResource p.crypto p.json (fun i => wall (i + 1)) disk env).1 = m
        at hpart hkeeps hstored ⊢
      have hnew : ∀ v, m.Stored p.crypto p.json v →
          n.Stored p.crypto p.json v ∨ v.resource = r := fun v hv =>
        ((hstored v).2 hv).imp_right fun h => Except.ok.inj (h.1.symm.trans hread)
      have hmem : m.inner.manifests = n.inner.manifests := congrArg ManifestPart.memory hpart
      have hop : m.operator = n.operator := congrArg ManifestPart.operator hpart
      refine ⟨by rw [hmem, hop, hn.operator], hkeeps, fun v hv hlive hkind => ?_, ?_⟩
      · rcases hnew v hv with hv' | rfl
        · exact (hn.linked v hv' hlive hkind).mono fun u hu => ⟨(hstored u).1 hu.1, hu.2⟩
        · exact hn.connected_of_links hsha (fun u => (hstored u).1) (hlinks _ hread) hval hv hlive
            hkind
      · refine hn.oneOwner.give (.resource r.kind r.name) (fun h => r.deleted = false ∧
          ∃ label hostnames, p.routingResourceHostnames r = .ok (some (label, hostnames)) ∧
            h ∈ hostnames) (fun nowMs o h ho => ?_) ?_
        · cases o with
          | worker name =>
            unfold Owns liveManifests at ho
            rw [hmem] at ho
            exact .inl ho
          | resource kind name =>
            obtain ⟨v, hv, hlive, rfl, rfl, label, hostnames, hrouted, hh⟩ := ho
            rcases hn.mem_heads_of_grow hsha hkeeps (fun u => (hstored u).1) hnew hv hlive
              (kind_of_routing hrouted) with hv' | rfl
            · exact .inl ⟨v, hv', hlive, rfl, rfl, label, hostnames, hrouted, hh⟩
            · exact .inr ⟨rfl, hlive, label, hostnames, hrouted, hh⟩
        · rintro nowMs o h ⟨hlive, label, hostnames, hrouting, hh⟩ ho
          exact hn.free_of_resource hsha hok hlive hrouting hh ho

end

/-! ### Runs -/

/-- The resources of a list of writes. -/
def resourceEnvelopes (evs : List WriteEvent) : List Envelope :=
  evs.filterMap fun ev => match ev.write with
    | .manifest _ => none
    | .resource body => (fromBytes body).toOption

theorem Routed.step {evs : List WriteEvent} {ev : WriteEvent}
    (hn : Routed p (resourceEnvelopes evs) n)
    (hsha : p.crypto.CollisionFree ((resourceEnvelopes evs).map digestInput))
    (hev : ev ∈ evs) (hlinks : n.linksWrite p ev) (hstep : n.submit p ev = some m) :
    Routed p (resourceEnvelopes evs) m := by
  cases hstep
  unfold afterWrite
  obtain ⟨write, wall, disk⟩ := ev
  cases write with
  | manifest body =>
    dsimp only
    cases fromBytes body with
    | error e => exact hn
    | ok env => exact hn.submitManifest hsha wall disk env
  | resource body =>
    unfold linksWrite at hlinks
    dsimp only at hlinks ⊢
    cases hbody : fromBytes body with
    | error e => exact hn
    | ok env =>
      have henv : env ∈ resourceEnvelopes evs :=
        mem_filterMap.2 ⟨_, hev, by dsimp only; rw [hbody]; rfl⟩
      refine hn.submitResource hsha wall disk henv (fromBytes_toBytes hbody) fun r hr => ?_
      rw [hbody] at hlinks
      dsimp only at hlinks
      rw [hr] at hlinks
      exact hlinks

/-- **Every hostname has one owner** in every run in which the live records that own hostnames come
after their predecessors. -/
theorem oneOwner_of_links (p : PlatformEnv) (id : PublicId) (operator : SignerId)
    (evs : List WriteEvent) (n : Node)
    (hsha : p.crypto.CollisionFree ((resourceEnvelopes evs).map digestInput))
    (hlinks : Runs.Meets (submit p) (fun n ev => n.linksWrite p ev) (new id operator) evs)
    (hrun : run (submit p) (new id operator) evs = some n) : OneOwner p n :=
  (run_invariant (P := Routed p (resourceEnvelopes evs))
    (fun _ _ _ hn hev hstep => hn.step hsha hev.2 hev.1 hstep) (routed_new p _ id operator)
    (hlinks.and_mem fun _ hev => hev) hrun).oneOwner

/-! ### Samples -/

/-- Configurations that are a hostname, and no other checks. -/
def samplePlatform : PlatformEnv where
  crypto := sampleCrypto
  json := fun text => some (if text = "null" then .null else .object [("hostname", .string text)])
  domain := some "d"
  policy := fun _ => .ok .default
  bucket := fun
    | .object [(_, .string hostname)] => .ok [hostname]
    | _ => .ok []
  pipeline := fun _ => .ok []
  flow := fun _ => .ok []
  workflow := fun _ => .ok []
  preview := .ok
  serviceBindings := fun _ _ => .ok ()
  token := fun _ => .ok ()
  credential := fun _ => .ok ()
  binary := fun _ => .ok ()
  hostnameClaim := fun _ => .ok ()
  storagePolicy := fun _ _ => .ok ()
  exit := fun _ _ => .ok ()
  bucketStorage := fun _ _ => .ok ()

/-- The operator's envelope of a record. -/
def sampleRecord (kind name : String) (prev : Option Envelope) (deleted : Bool) (spec : String) :
    Envelope :=
  .sample sampleOperator (ResourceRecord.encode ⟨1, kind, name, if prev.isNone then 1 else 2,
    prev.map (·.digest sampleCrypto), deleted, spec⟩)

def resourceWrite (env : Envelope) : WriteEvent :=
  ⟨.resource env.toBytes, fun _ => 1000, fun _ => true⟩

/-- A bucket takes a hostname and leaves it, and a preview takes it. -/
def handedOver : List WriteEvent :=
  [resourceWrite (sampleRecord bucketKind "a" none false "h"),
    ⟨.manifest (sampleDeploy 1 none "a").toBytes, fun _ => 1000, fun _ => true⟩,
    resourceWrite (sampleRecord bucketKind "a"
      (some (sampleRecord bucketKind "a" none false "h")) false "g"),
    resourceWrite (sampleRecord previewKind "b" none false "h")]

theorem oneOwner_handedOver :
    ∃ n, run (submit samplePlatform) (new ⟨0⟩ sampleOperator) handedOver = some n ∧
      (n.heads sampleCrypto samplePlatform.json 2000 none).map (·.resource.specJson) = ["g", "h"] ∧
      n.liveManifests.map (·.name) = ["w"] ∧ OneOwner samplePlatform n :=
  ⟨_, rfl, by decide +kernel, by decide +kernel,
    oneOwner_of_links samplePlatform ⟨0⟩ sampleOperator handedOver _ (by decide +kernel)
      (by decide +kernel) rfl⟩

/-- The second version of a bucket comes before the first, and another bucket in between. -/
def orphaned : List WriteEvent :=
  [resourceWrite (sampleRecord bucketKind "a"
      (some (sampleRecord bucketKind "a" none false "g")) false "h"),
    resourceWrite (sampleRecord bucketKind "b" none false "h"),
    resourceWrite (sampleRecord bucketKind "a" none false "g")]

/-- Both buckets own the hostname. -/
theorem orphaned_twoOwners :
    ∃ n, run (submit samplePlatform) (new ⟨0⟩ sampleOperator) orphaned = some n ∧
      ¬ OneOwner samplePlatform n := by
  obtain ⟨n, hrun, hheads⟩ : ∃ n ∈ run (submit samplePlatform) (new ⟨0⟩ sampleOperator) orphaned,
      ∀ name ∈ ["a", "b"], ∃ v ∈ n.heads sampleCrypto samplePlatform.json 2000 none,
        v.resource.deleted = false ∧ v.resource.kind = bucketKind ∧ v.resource.name = name ∧
        v.resource.specJson = "h" := by
    decide +kernel
  have howns : ∀ name ∈ ["a", "b"], Owns samplePlatform n 2000 (.resource bucketKind name) "h" := by
    intro name hname
    obtain ⟨v, hv, hlive, hkind, rfl, hspec⟩ := hheads name hname
    refine ⟨v, hv, hlive, hkind, rfl, ownerText "R2 bucket" v.resource.name,
      ["h"] ++ (samplePlatform.defaultR2Hostname v.resource.name).toList, ?_, by simp⟩
    have hread : samplePlatform.bucketSpec v.resource = .ok ["h"] := by
      unfold bucketSpec specOfKind spec
      rw [if_neg (not_not.2 hkind), hspec]
      rfl
    rw [routingResourceHostnames, if_pos hkind, hread]
    rfl
  refine ⟨n, hrun, fun h => ?_⟩
  have hab := h 2000 _ _ "h" (howns "a" (by simp)) (howns "b" (by simp))
  exact absurd hab (by decide)

end RandallFlare
