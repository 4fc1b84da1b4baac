import RandallFlare.Platform.Resources

/-!
# Admission

A translation of the checks of `rf/src/quota.rs` that a node makes before it takes a manifest or a
resource from the operator: cluster-wide quotas, and that no public hostname gets a second owner.
How the configuration of a resource is read from JSON, the checks of kinds without hostnames and the
check of service bindings are parameters; so is the default domain of the node.  The clock is read
once for a check.

* `routingResourceHostnames`: the hostnames of a resource, if its kind has any;
* `validateManifestAdmission`, `validateResourceAdmission`: the checks.
-/

namespace RandallFlare

open Fallible List

/-! ### Policy -/

def policyKind : String := "cluster_policy"

def policyName : String := "default"

def policySchema : ℕ := 1

structure ClusterQuotaPolicy where
  schema : ℕ
  maxWorkers : ℕ
  maxCustomHostnames : ℕ
  maxWorkerBytes : ℕ
  maxRequestsPerMinute : ℕ
  maxR2LocalBytes : ℕ
  maxR2Objects : ℕ

namespace ClusterQuotaPolicy

/-- The quotas without a policy. -/
def default : ClusterQuotaPolicy where
  schema := policySchema
  maxWorkers := 50
  maxCustomHostnames := 10
  maxWorkerBytes := 50000000
  maxRequestsPerMinute := 10000
  maxR2LocalBytes := 1024 * 1024 * 1024
  maxR2Objects := 10000

/-- A quota is positive and at most `limit`. -/
def checkQuota (quota limit : ℕ) (message : String) : Except String Unit :=
  if quota = 0 ∨ limit < quota then .error message else .ok ()

def validate (q : ClusterQuotaPolicy) : Except String Unit := do
  if q.schema ≠ policySchema then throw "不支持此版本的集群配额策略"
  checkQuota q.maxWorkers 1000000 "Worker 数量配额必须介于 1 和 1000000 之间"
  checkQuota q.maxCustomHostnames 1000000 "自定义域名配额必须介于 1 和 1000000 之间"
  checkQuota q.maxWorkerBytes (8 * 1024 * 1024 * 1024)
    "单个 Worker 内容配额必须介于 1 字节和 8 GiB 之间"
  checkQuota q.maxRequestsPerMinute 1000000000 "每分钟请求配额必须介于 1 和 1000000000 之间"
  checkQuota q.maxR2LocalBytes (2 ^ 63 - 1) "R2 本地存储配额必须介于 1 字节和 i64::MAX 之间"
  checkQuota q.maxR2Objects (2 ^ 63 - 1) "R2 对象数量配额必须介于 1 和 i64::MAX 之间"

/-- The default quotas are valid. -/
theorem validate_default : default.validate = .ok () := by
  simp [validate, default, checkQuota, policySchema]
  rfl

end ClusterQuotaPolicy

/-! ### Hostnames -/

def bucketKind : String := "r2_bucket"

def pipelineKind : String := "pipeline"

def flowKind : String := "flow"

def workflowKind : String := "workflow"

def previewKind : String := "worker_preview"

/-- What the admission takes from the configuration of the node and from other modules. -/
structure PlatformEnv where
  crypto : Crypto
  json : JsonReader
  /-- The domain of default hostnames. -/
  domain : Option String
  /-- A policy, as `serde_json` reads it. -/
  policy : JsonTree → Except String ClusterQuotaPolicy
  /-- The hostnames in the configuration of a bucket, which is read and validated, and so on. -/
  bucket : JsonTree → Except String (List String)
  pipeline : JsonTree → Except String (List String)
  flow : JsonTree → Except String (List String)
  workflow : JsonTree → Except String (List String)
  /-- The hostname in the text of the configuration of a preview. -/
  preview : String → Except String String
  /-- The check of service bindings among the live workers. -/
  serviceBindings : List WorkerManifest → WorkerManifest → Except String Unit
  token : ResourceRecord → Except String Unit
  credential : ResourceRecord → Except String Unit
  binary : ResourceRecord → Except String Unit
  hostnameClaim : ResourceRecord → Except String Unit
  storagePolicy : Node → ResourceRecord → Except String Unit
  exit : Node → ResourceRecord → Except String Unit
  /-- The check of the storage policy a bucket names. -/
  bucketStorage : Node → ResourceRecord → Except String Unit

def Node.liveManifests (n : Node) : List WorkerManifest :=
  (n.inner.manifests.workers.values.map (·.manifest)).filter fun m => !m.deleted

/-- `worker_bytes`, a sum in 64 bits. -/
def workerBytes (m : WorkerManifest) : ℕ :=
  ((m.modules.map (·.size)).sum + (m.assets.map (·.size)).sum) % UInt64.size

namespace PlatformEnv

variable (p : PlatformEnv)

def defaultHostname (label name : String) : Option String :=
  p.domain.map fun domain => String.ofList (label.toList ++ name.toList ++ '.' :: domain.toList)

def defaultWorkerHostname (worker : String) : Option String := p.defaultHostname "" worker

def defaultR2Hostname (bucket : String) : Option String := p.defaultHostname "r2-" bucket

def defaultPipelineHostname (pipeline : String) : Option String :=
  p.defaultHostname "pipe-" pipeline

def defaultFlowHostname (flow : String) : Option String := p.defaultHostname "flow-" flow

def defaultWorkflowHostname (workflow : String) : Option String :=
  p.defaultHostname "workflow-" workflow

def spec (r : ResourceRecord) : Except String JsonTree :=
  match p.json r.specJson with
  | some tree => .ok tree
  | none => .error "平台资源配置不是有效的 JSON"

/-- The configuration of a resource that has to be of a kind. -/
def specOfKind {α : Type} (kind message : String) (read : JsonTree → Except String α)
    (r : ResourceRecord) : Except String α :=
  if r.kind ≠ kind then .error message else p.spec r >>= read

def bucketSpec : ResourceRecord → Except String (List String) :=
  p.specOfKind bucketKind "平台资源不是 R2 bucket" p.bucket

def pipelineSpec : ResourceRecord → Except String (List String) :=
  p.specOfKind pipelineKind "平台资源不是 Pipeline" p.pipeline

def flowSpec : ResourceRecord → Except String (List String) :=
  p.specOfKind flowKind "平台资源不是 Flow" p.flow

def workflowSpec : ResourceRecord → Except String (List String) :=
  p.specOfKind workflowKind "平台资源不是 Workflow" p.workflow

def previewSpec (r : ResourceRecord) : Except String String :=
  if r.kind ≠ previewKind ∨ r.deleted = true then .error "平台资源不是可用的 Worker 预览"
  else p.preview r.specJson

/-- An owner of hostnames, as messages call it. -/
def ownerText (label name : String) : String :=
  String.ofList (label.toList ++ ' ' :: name.toList)

/-- The hostnames of a resource are those of its configuration and its default one. -/
def routedHostnames (label : String) (hostname : Option String)
    (spec : Except String (List String)) (r : ResourceRecord) :
    Except String (Option (String × List String)) :=
  spec.map fun hostnames => some (ownerText label r.name, hostnames ++ hostname.toList)

/-- `routing_resource_hostnames`: the owner and its hostnames. -/
def routingResourceHostnames (r : ResourceRecord) :
    Except String (Option (String × List String)) :=
  if r.kind = bucketKind then
    routedHostnames "R2 bucket" (p.defaultR2Hostname r.name) (p.bucketSpec r) r
  else if r.kind = pipelineKind then
    routedHostnames "Pipeline" (p.defaultPipelineHostname r.name) (p.pipelineSpec r) r
  else if r.kind = flowKind then
    routedHostnames "Flow" (p.defaultFlowHostname r.name) (p.flowSpec r) r
  else if r.kind = workflowKind then
    routedHostnames "Workflow" (p.defaultWorkflowHostname r.name) (p.workflowSpec r) r
  else if r.kind = previewKind then
    (p.previewSpec r).map fun hostname => some (ownerText "Worker 预览" r.name, [hostname])
  else .ok none

/-! ### Checks -/

def policySpec (r : ResourceRecord) : Except String ClusterQuotaPolicy :=
  if r.kind ≠ policyKind ∨ r.name ≠ policyName then .error "平台资源不是默认集群配额策略"
  else do
    let tree ← p.spec r
    let q ← p.policy tree
    q.validate
    pure q

/-- `quota::policy`. -/
def clusterPolicy (n : Node) (nowMs : ℕ) : Except String ClusterQuotaPolicy :=
  match n.head p.crypto p.json nowMs policyKind policyName with
  | none => .ok .default
  | some v => if v.resource.deleted then .ok .default else p.policySpec v.resource

/-- `replaced_by`: the current record is one of the same resource. -/
def replacedBy (current : ResourceRecord) (replacement : Option ResourceRecord) : Bool :=
  replacement.any fun r => r.kind == current.kind && r.name == current.name

/-- Note the owner of the hostnames that have none yet. -/
def claimHostnames (owners : SortedMap String String) (owner : String) (hostnames : List String) :
    SortedMap String String :=
  hostnames.foldl (fun owners hostname => match owners.get hostname with
    | some _ => owners
    | none => owners.insert hostname owner) owners

/-- The owners of the hostnames of live workers, but for the one that is replaced. -/
def workerOwners (n : Node) (replacement : Option WorkerManifest) : SortedMap String String :=
  n.liveManifests.foldl (fun owners m =>
    if replacement.map (·.name) = some m.name then owners
    else claimHostnames owners (ownerText "Worker" m.name)
      ((p.defaultWorkerHostname m.name).toList ++ m.hostnames)) SortedMap.empty

/-- Add the owners among the live resources, but for the one that is replaced. -/
def resourceOwners (replacement : Option ResourceRecord) (owners : SortedMap String String)
    (heads : List ResourceView) : Except String (SortedMap String String) :=
  heads.foldlM (fun owners v =>
    if v.resource.deleted || replacedBy v.resource replacement then pure owners
    else do
      match ← p.routingResourceHostnames v.resource with
      | some (owner, hostnames) => pure (claimHostnames owners owner hostnames)
      | none => pure owners) owners

/-- Who asks for which hostnames. -/
def candidateHostnames (manifest : Option WorkerManifest) (resource : Option ResourceRecord) :
    Except String (Option (String × List String)) :=
  match manifest.filter (!·.deleted) with
  | some m => .ok (some (ownerText "Worker" m.name,
      m.hostnames ++ (p.defaultWorkerHostname m.name).toList))
  | none => match resource.filter (!·.deleted) with
      | some r => p.routingResourceHostnames r
      | none => .ok none

def validateRoutingHostnameAdmission (n : Node) (nowMs : ℕ) (manifest : Option WorkerManifest)
    (resource : Option ResourceRecord) : Except String Unit := do
  let owners ← p.resourceOwners resource (p.workerOwners n manifest)
    (n.heads p.crypto p.json nowMs none)
  match ← p.candidateHostnames manifest resource with
  | none => pure ()
  | some (candidate, hostnames) =>
      match hostnames.findSome? fun hostname => (owners.get hostname).map (hostname, ·) with
      | none => pure ()
      | some (hostname, owner) => throw s!"公开域名 {hostname} 已由 {owner} 使用，不能同时分配给 {candidate}"

/-- `extend_resource_hostnames`: the hostnames of the configuration only. -/
def customHostnames (r : ResourceRecord) : Except String (List String) :=
  if r.kind = bucketKind then p.bucketSpec r
  else if r.kind = pipelineKind then p.pipelineSpec r
  else if r.kind = flowKind then p.flowSpec r
  else if r.kind = workflowKind then p.workflowSpec r
  else .ok []

/-- `prospective_custom_hostnames`, as a list without repetitions. -/
def prospectiveCustomHostnames (n : Node) (nowMs : ℕ) (manifest : Option WorkerManifest)
    (resource : Option ResourceRecord) : Except String (List String) := do
  let workers := n.liveManifests.filter fun m => manifest.map (·.name) ≠ some m.name
  let heads := (n.heads p.crypto p.json nowMs none).filter fun v =>
    !(v.resource.deleted || replacedBy v.resource resource)
  let current ← (heads.map (·.resource)).mapM p.customHostnames
  let added ← (resource.filter (!·.deleted)).toList.mapM p.customHostnames
  pure ((workers ++ (manifest.filter (!·.deleted)).toList).flatMap (·.hostnames) ++
    current.flatten ++ added.flatten).dedup

/-- The number of custom hostnames stays within the quota. -/
def checkHostnameQuota (q : ClusterQuotaPolicy) (hostnames : List String) : Except String Unit :=
  if q.maxCustomHostnames < hostnames.length then
    .error s!"自定义域名数量 {hostnames.length} 超过集群配额 {q.maxCustomHostnames}"
  else .ok ()

def validateManifestAdmission (n : Node) (nowMs : ℕ) (m : WorkerManifest) : Except String Unit :=
  if m.deleted then .ok ()
  else do
    p.serviceBindings n.liveManifests m
    p.validateRoutingHostnameAdmission n nowMs (some m) none
    let q ← (p.clusterPolicy n nowMs).mapError fun _ => "集群配额策略无效；为安全起见拒绝部署"
    if q.maxWorkerBytes < workerBytes m then
      throw s!"Worker 内容大小 {workerBytes m} 字节超过单项目配额 {q.maxWorkerBytes} 字节"
    if ((n.inner.manifests.get m.name).all fun held => held.manifest.deleted) ∧
        q.maxWorkers ≤ n.liveManifests.length then
      throw s!"Worker 数量已达到集群配额 {q.maxWorkers}"
    let hostnames ← p.prospectiveCustomHostnames n nowMs (some m) none
    checkHostnameQuota q hostnames

def validateResourceAdmission (n : Node) (nowMs : ℕ) (r : ResourceRecord) :
    Except String Unit := do
  r.validate p.json
  if r.deleted then pure ()
  else if r.kind = policyKind then
    let _ ← p.policySpec r
    pure ()
  else if r.kind = "api_access_token" then p.token r
  else if r.kind = "r2_s3_credential" then p.credential r
  else if r.kind = "binary" then p.binary r
  else if r.kind = "storage_policy" then p.storagePolicy n r
  else if r.kind = "hostname_claim" then p.hostnameClaim r
  else if r.kind = previewKind then
    let _ ← p.previewSpec r
    p.validateRoutingHostnameAdmission n nowMs none (some r)
  else if r.kind = "exit_rule" ∨ r.kind = "client_device" then p.exit n r
  else
    if r.kind = bucketKind then
      let _ ← p.bucketSpec r
      p.bucketStorage n r
    let q ← (p.clusterPolicy n nowMs).mapError fun _ => "集群配额策略无效；为安全起见拒绝资源变更"
    if r.kind ∈ [bucketKind, pipelineKind, flowKind, workflowKind] then
      p.validateRoutingHostnameAdmission n nowMs none (some r)
      let hostnames ← p.prospectiveCustomHostnames n nowMs none (some r)
      checkHostnameQuota q hostnames

/-! ### What has passed -/

variable {p : PlatformEnv} {n : Node} {nowMs : ℕ} {h : String}

variable {owners : SortedMap String String} {hostnames : List String} {m : WorkerManifest}
  {r : ResourceRecord}

theorem get_claimHostnames {owner : String} : (claimHostnames owners owner hostnames).get h = none ↔
      owners.get h = none ∧ h ∉ hostnames := by
  induction hostnames generalizing owners with
  | nil => simp [claimHostnames]
  | cons k l ih =>
    unfold claimHostnames at ih ⊢
    rw [foldl_cons, ih, mem_cons, not_or]
    cases hk : owners.get k with
    | some o =>
      refine ⟨fun hh => ⟨hh.1, fun heq => ?_, hh.2⟩, fun hh => ⟨hh.1, hh.2.2⟩⟩
      rw [heq, hk] at hh
      cases hh.1
    | none =>
      rw [SortedMap.get_insert]
      split_ifs with heq
      · simp [heq]
      · simp [heq]

theorem get_workerOwners {replacement : Option WorkerManifest}
    (hnone : (p.workerOwners n replacement).get h = none)
    (hm : m ∈ n.liveManifests) (hname : replacement.map (·.name) ≠ some m.name) :
    h ∉ m.hostnames ++ (p.defaultWorkerHostname m.name).toList := by
  have hfold : ∀ (l : List WorkerManifest) (owners : SortedMap String String),
      (l.foldl (fun owners m =>
        if replacement.map (·.name) = some m.name then owners
        else claimHostnames owners (ownerText "Worker" m.name)
          ((p.defaultWorkerHostname m.name).toList ++ m.hostnames)) owners).get h = none →
      owners.get h = none ∧ ∀ m ∈ l, replacement.map (·.name) ≠ some m.name →
        h ∉ m.hostnames ++ (p.defaultWorkerHostname m.name).toList := by
    intro l
    induction l with
    | nil => exact fun owners hget => ⟨hget, by simp⟩
    | cons m l ih =>
      intro owners hget
      obtain ⟨hfirst, hrest⟩ := ih _ hget
      dsimp only at hfirst
      split_ifs at hfirst with hsame
      · refine ⟨hfirst, fun m' hm' hne => ?_⟩
        rcases mem_cons.1 hm' with rfl | hm'
        · exact absurd hsame hne
        · exact hrest m' hm' hne
      · obtain ⟨howners, hh⟩ := get_claimHostnames.1 hfirst
        refine ⟨howners, fun m' hm' hne => ?_⟩
        rcases mem_cons.1 hm' with rfl | hm'
        · simpa [and_comm] using hh
        · exact hrest m' hm' hne
  exact (hfold _ _ hnone).2 m hm hname

theorem get_resourceOwners {replacement : Option ResourceRecord} {heads : List ResourceView}
    {owners' : SortedMap String String}
    (hok : p.resourceOwners replacement owners heads = .ok owners') (hnone : owners'.get h = none) :
    owners.get h = none ∧ ∀ v ∈ heads, v.resource.deleted = false →
      replacedBy v.resource replacement = false → ∀ owner hostnames,
      p.routingResourceHostnames v.resource = .ok (some (owner, hostnames)) → h ∉ hostnames := by
  induction heads generalizing owners with
  | nil =>
    cases hok
    exact ⟨hnone, by simp⟩
  | cons v l ih =>
    unfold resourceOwners at hok ih
    rw [foldlM_cons] at hok
    obtain ⟨mid, hmid, hok⟩ := bind_eq_ok.1 hok
    obtain ⟨hfirst, hrest⟩ := ih hok
    split_ifs at hmid with hskip
    · cases hmid
      refine ⟨hfirst, fun w hw hlive hother => ?_⟩
      rcases mem_cons.1 hw with rfl | hw
      · simp [hlive, hother] at hskip
      · exact hrest w hw hlive hother
    · obtain ⟨found, hfound, hmid⟩ := bind_eq_ok.1 hmid
      cases found with
      | none =>
        cases hmid
        refine ⟨hfirst, fun w hw hlive hother owner hostnames hrouted => ?_⟩
        rcases mem_cons.1 hw with rfl | hw
        · rw [hrouted] at hfound
          cases hfound
        · exact hrest w hw hlive hother owner hostnames hrouted
      | some found =>
        cases hmid
        obtain ⟨howners, hh⟩ := get_claimHostnames.1 hfirst
        refine ⟨howners, fun w hw hlive hother owner hostnames hrouted => ?_⟩
        rcases mem_cons.1 hw with rfl | hw
        · rw [hrouted] at hfound
          cases Except.ok.inj hfound
          exact hh
        · exact hrest w hw hlive hother owner hostnames hrouted

/-- **A hostname that passes has no other owner.** -/
theorem notMem_of_validateRouting {manifest : Option WorkerManifest}
    {resource : Option ResourceRecord} {candidate : String}
    (hok : p.validateRoutingHostnameAdmission n nowMs manifest resource = .ok ())
    (hcand : p.candidateHostnames manifest resource = .ok (some (candidate, hostnames)))
    (hh : h ∈ hostnames) : (∀ m ∈ n.liveManifests, manifest.map (·.name) ≠ some m.name →
      h ∉ m.hostnames ++ (p.defaultWorkerHostname m.name).toList) ∧
    ∀ v ∈ n.heads p.crypto p.json nowMs none, v.resource.deleted = false →
      replacedBy v.resource resource = false → ∀ owner hostnames,
      p.routingResourceHostnames v.resource = .ok (some (owner, hostnames)) → h ∉ hostnames := by
  obtain ⟨owners, howners, hok⟩ := bind_eq_ok.1 hok
  obtain ⟨found, hfound, hok⟩ := bind_eq_ok.1 hok
  cases hcand.symm.trans hfound
  have hnone : owners.get h = none := by
    by_contra hsome
    obtain ⟨o, ho⟩ := Option.ne_none_iff_exists'.1 hsome
    dsimp only at hok
    split at hok
    · rename_i hfind
      rw [findSome?_eq_none_iff] at hfind
      have := hfind h hh
      rw [ho] at this
      cases this
    · cases hok
  obtain ⟨hworkers, hheads⟩ := get_resourceOwners howners hnone
  exact ⟨fun m hm hname => get_workerOwners hworkers hm hname, hheads⟩

/-- The kinds that own hostnames. -/
def routedKinds : List String := [bucketKind, pipelineKind, flowKind, workflowKind, previewKind]

theorem kind_of_routing {found : String × List String}
    (hr : p.routingResourceHostnames r = .ok (some found)) : r.kind ∈ routedKinds := by
  unfold routingResourceHostnames at hr
  split_ifs at hr with h₁ h₂ h₃ h₄ h₅
  · simp [routedKinds, h₁]
  · simp [routedKinds, h₂]
  · simp [routedKinds, h₃]
  · simp [routedKinds, h₄]
  · simp [routedKinds, h₅]
  · cases hr

theorem validateRouting_of_manifest
    (hok : p.validateManifestAdmission n nowMs m = .ok ()) (hlive : m.deleted = false) :
    p.validateRoutingHostnameAdmission n nowMs (some m) none = .ok () := by
  unfold validateManifestAdmission at hok
  rw [if_neg (by simp [hlive])] at hok
  obtain ⟨-, -, hok⟩ := bind_eq_ok.1 hok
  obtain ⟨u, hrouting, -⟩ := bind_eq_ok.1 hok
  exact hrouting

theorem routing_of_quota {quota : Except String ClusterQuotaPolicy}
    {rest : ClusterQuotaPolicy → Except String Unit}
    (hok : (do
      let q ← quota
      p.validateRoutingHostnameAdmission n nowMs none (some r)
      rest q) = .ok ()) :
    p.validateRoutingHostnameAdmission n nowMs none (some r) = .ok () := by
  obtain ⟨q, -, hok⟩ := bind_eq_ok.1 hok
  obtain ⟨u, hrouting, -⟩ := bind_eq_ok.1 hok
  exact hrouting

theorem validateRouting_of_resource
    (hok : p.validateResourceAdmission n nowMs r = .ok ()) (hlive : r.deleted = false)
    (hkind : r.kind ∈ routedKinds) :
    p.validateRoutingHostnameAdmission n nowMs none (some r) = .ok () := by
  obtain ⟨-, -, hok⟩ := bind_eq_ok.1 hok
  rw [if_neg (by simp [hlive])] at hok
  simp only [routedKinds, mem_cons, not_mem_nil, or_false] at hkind
  rcases hkind with hk | hk | hk | hk | hk <;>
    simp only [hk, policyKind, bucketKind, pipelineKind, flowKind, workflowKind, previewKind,
      String.reduceEq, reduceIte, mem_cons, or_self, or_true, false_or, true_or] at hok
  · obtain ⟨-, -, hok⟩ := bind_eq_ok.1 hok
    obtain ⟨-, -, hok⟩ := bind_eq_ok.1 hok
    exact routing_of_quota hok
  · exact routing_of_quota hok
  · exact routing_of_quota hok
  · exact routing_of_quota hok
  · obtain ⟨-, -, hok⟩ := bind_eq_ok.1 hok
    exact hok

end PlatformEnv

end RandallFlare
