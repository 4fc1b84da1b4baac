import RandallFlare.Platform.Resources
import RandallFlare.R2.Tables

/-!
# The storage policy and the shards it lists

A translation of `rf/src/storage_policy.rs` and of the writes of `rf/src/r2.rs` that a policy
places.  A bucket may leave the choice of a remote to the signed policy; the row of each object and
part then names the remote it was given.  A change of the policy is checked when it is received: a
remote that rows of live buckets name must not be removed.

* `StoragePolicy`, `validateAdmission`, `validateTransition`, `resolve`, `shardReferences`;
* `World`: the records a node has and the databases of the buckets; `apply`: one operation;
* `Listed`: the policy in force lists every remote that a row of a live bucket names.

What `serde_json` makes of a configuration is a parameter, and so is whether the checks that have
nothing to do with storage let a record or a write pass.
-/

namespace RandallFlare

open SortedMap

namespace R2

open Fallible (failIf)

def storagePolicyKind : String := "storage_policy"

def bucketKind : String := "r2_bucket"

/-- How a database is backed up to a bucket. -/
structure D1BackupPolicy where
  database : String
  bucket : String
  keyPrefix : String := "d1-backups"
  intervalHours : ℕ := 24
  retentionDays : ℕ := 30
  deriving DecidableEq

def D1BackupPolicy.validate (b : D1BackupPolicy) : Except String Unit := do
  failIf (¬ validName b.database ∨ ¬ validName b.bucket)
    "D1 备份策略中的数据库或 R2 bucket 名称无效"
  failIf (¬ validPrefix b.keyPrefix) "rclone 对象前缀无效"
  failIf (¬ (1 ≤ b.intervalHours ∧ b.intervalHours ≤ 720))
    "D1 自动备份间隔必须介于 1 和 720 小时之间"
  failIf (¬ (1 ≤ b.retentionDays ∧ b.retentionDays ≤ 3650))
    "D1 备份保留期必须介于 1 和 3650 天之间"

inductive NewBucketBackend
  | localDisk
  | rcloneSharded
  deriving DecidableEq

structure StoragePolicy where
  schema : UInt8 := 1
  newBucketBackend : NewBucketBackend := .localDisk
  shardRemotes : List String := []
  shardPrefix : String := ""
  d1Backups : List D1BackupPolicy := []
  deriving DecidableEq

namespace StoragePolicy

/-- Each item passes its check, and its key is none of those before. -/
def checkEach {α : Type} (check : α → Except String Unit) (key : α → String)
    (message : String → String) : List String → List α → Except String Unit
  | _, [] => .ok ()
  | seen, a :: rest => do
      check a
      failIf (key a ∈ seen) (message (key a))
      checkEach check key message (key a :: seen) rest

def validate (p : StoragePolicy) : Except String Unit := do
  failIf (p.schema ≠ 1) "不支持此版本的存储策略"
  failIf (256 < p.shardRemotes.length) "rclone 分片 remote 最多 256 个"
  checkEach (fun remote => failIf (¬ validRemote remote) ("rclone 分片 remote 名称无效：" ++ remote))
    id ("rclone 分片 remote 不能重复：" ++ ·) [] p.shardRemotes
  failIf (¬ validPrefix p.shardPrefix) "rclone 对象前缀无效"
  failIf (256 < p.d1Backups.length) "D1 自动备份策略最多 256 条"
  checkEach D1BackupPolicy.validate D1BackupPolicy.database
    ("每个 D1 数据库只能配置一条自动备份策略：" ++ ·) [] p.d1Backups
  failIf (p.newBucketBackend = .rcloneSharded ∧ p.shardRemotes = [])
    "新 bucket 使用 rclone 分片时至少需要一个 remote"

end StoragePolicy

/-- What `serde_json` reads of the configurations. -/
structure Decoders where
  json : JsonReader
  policy : JsonTree → Option StoragePolicy
  bucket : JsonTree → Option BucketSpec

/-- The records a node has, and the metadata databases of the buckets. -/
structure World where
  resources : List ResourceView := []
  databases : SortedMap String Database := empty

/-! ### Heads -/

/-- The records of a list that count. -/
def recordsIn (l : List ResourceView) : List ResourceView :=
  (groupBy ResourceView.id l).values.flatMap Node.connected

/-- `Node.head` of the records it reads; of several highest records it is the last one. -/
def headIn (l : List ResourceView) (kind name : String) : Option ResourceView :=
  ((recordsIn l).filter fun v => v.resource.kind = kind ∧ v.resource.name = name).foldl
    (fun best v => match best with
      | some b => if v.rank < b.rank then some b else some v
      | none => some v) none

/-- The heads of the resources of a kind. -/
def headsIn (l : List ResourceView) (kind : String) : List ResourceView :=
  (latestBy ResourceView.id ResourceView.rank
    ((recordsIn l).filter (·.resource.kind = kind))).values

section

variable (d : Decoders)

def policySpec (r : ResourceRecord) : Except String StoragePolicy :=
  if r.kind ≠ storagePolicyKind ∨ r.deleted ∨ r.name ≠ defaultPolicyName then
    .error "平台资源不是可用的默认存储策略"
  else match (d.json r.specJson).bind d.policy with
    | none => .error "平台资源配置不是有效的 JSON"
    | some p => do
        p.validate
        pure p

def bucketSpec (r : ResourceRecord) : Except String BucketSpec :=
  if r.kind ≠ bucketKind then .error "平台资源不是 R2 bucket"
  else match (d.json r.specJson).bind d.bucket with
    | none => .error "平台资源配置不是有效的 JSON"
    | some s => do
        s.validate
        pure s

namespace World

/-- The database of a bucket; `ensure_schema` makes an empty one. -/
def database (w : World) (bucket : String) : Database := (w.databases.get bucket).getD {}

def setDatabase (w : World) (bucket : String) (db : Database) : World :=
  { w with databases := w.databases.insert bucket db }

def current (w : World) : Except String StoragePolicy :=
  match headIn w.resources storagePolicyKind defaultPolicyName with
  | none => .ok {}
  | some v => if v.resource.deleted then .ok {} else policySpec d v.resource

def bucketRecord (w : World) (name : String) : Option BucketSpec :=
  match headIn w.resources bucketKind name with
  | none => none
  | some v => if v.resource.deleted then none else (bucketSpec d v.resource).toOption

def bucketRecords (w : World) : List (String × BucketSpec) :=
  ((headsIn w.resources bucketKind).filter (!·.resource.deleted)).filterMap fun v =>
    (bucketSpec d v.resource).toOption.map fun s => (v.resource.name, s)

def validateAdmission (w : World) (r : ResourceRecord) : Except String Unit :=
  if r.kind ≠ storagePolicyKind then .ok ()
  else
    let referenced := (w.bucketRecords d).any fun p => p.2.storagePolicy = some defaultPolicyName
    if r.deleted then failIf referenced "仍有 R2 bucket 使用默认分片策略，不能删除存储策略"
    else do
      let policy ← policySpec d r
      failIf (policy.shardRemotes = [] ∧ referenced)
        "仍有 R2 bucket 使用默认分片策略，不能清空全部 remote"

/-- The locations of the rows of a database, each with how many rows have it. -/
def groups (db : Database) : List (StorageLocation × ℕ) :=
  db.locations.dedup.map fun l => (l, db.locations.count l)

/-- Count the rows of a group, if they are pinned to a shard. -/
def addGroup (totals : SortedMap String ℕ) (g : StorageLocation × ℕ) : SortedMap String ℕ :=
  match g.1.shard with
  | some remote => totals.insert remote (min ((totals.get remote).getD 0 + g.2) (2 ^ 64 - 1))
  | none => totals

def shardReferences (w : World) : SortedMap String ℕ :=
  ((w.bucketRecords d).flatMap fun p => groups (w.database p.1)).foldl addGroup empty

/-- `storage_policy::validate_transition`, with the D1 databases that exist. -/
def validateTransition (w : World) (d1 : List String) (r : ResourceRecord) :
    Except String Unit := do
  w.validateAdmission d r
  if r.kind ≠ storagePolicyKind ∨ r.deleted then pure ()
  else
    let next ← policySpec d r
    next.d1Backups.forM fun backup => do
      failIf (backup.database ∉ d1) ("D1 自动备份策略引用了不存在的数据库：" ++ backup.database)
      failIf (w.bucketRecord d backup.bucket).isNone
        ("D1 自动备份策略引用了不存在的 R2 bucket：" ++ backup.bucket)
    let current ← w.current d
    let removed := current.shardRemotes.filter (· ∉ next.shardRemotes)
    if removed = [] then pure ()
    else
      let inUse := (w.shardReferences d).entries.filter fun p => p.1 ∈ removed ∧ 0 < p.2
      failIf (inUse ≠ []) ("以下 remote 仍保存被元数据固定的对象，不能从策略移除：" ++
        "、".intercalate (inUse.map fun p => p.1 ++ "（" ++ toString p.2 ++ " 条对象/分片引用）"))

/-- The remote for a digest: its first 32 bits choose. -/
def shardIndex (sha : Digest) (remoteCount : ℕ) : Option ℕ :=
  if remoteCount = 0 then none else some (sha.toNat / 2 ^ 224 % remoteCount)

def resolve (w : World) (policyName : String) (sha : Digest) : Except String StorageLocation :=
  if policyName ≠ defaultPolicyName then .error ("未知存储策略：" ++ policyName)
  else do
    let policy ← w.current d
    match (shardIndex sha policy.shardRemotes.length).bind (policy.shardRemotes[·]?) with
    | none => .error "存储策略没有可用的 rclone 分片 remote"
    | some remote => pure (.rcloneShard remote policy.shardPrefix)

/-- `resolve_write_storage` and `resolve_multipart_storage`. -/
def resolveStorage (w : World) (storagePolicy : Option String) (storage : StorageLocation)
    (sha : Digest) : Except String StorageLocation :=
  match storagePolicy with
  | some policy => w.resolve d policy sha
  | none => .ok storage

/-- `r2::validate_bucket_admission`, of a record that is not a tombstone. -/
def validateBucketAdmission (w : World) (r : ResourceRecord) : Except String Unit := do
  let spec ← bucketSpec d r
  match spec.storagePolicy with
  | some policy => do
      let _ ← w.resolve d policy 0
      pure ()
  | none => pure ()

/-- What `quota::validate_resource_admission` checks of storage; a tombstone passes. -/
def validateResourceAdmission (w : World) (r : ResourceRecord) : Except String Unit :=
  if r.deleted then .ok ()
  else if r.kind = storagePolicyKind then w.validateAdmission d r
  else if r.kind = bucketKind then w.validateBucketAdmission d r
  else .ok ()

/-! ### Operations -/

/-- `ingest_resource_envelope`, of the record of an envelope; `admitted`: the checks of other kinds,
host names and quotas pass. -/
def ingest (w : World) (v : ResourceView) (d1 : List String) (admitted : Bool) :
    Except String World := do
  v.resource.validate d.json
  w.validateTransition d d1 v.resource
  w.validateResourceAdmission d v.resource
  failIf (¬ admitted) "集群配额"
  pure (if v ∈ w.resources then w else { w with resources := w.resources ++ [v] })

/-- `commit_object`, `commit_object_file`; `admitted`: the quota of the cluster lets it pass. -/
def commitObject (w : World) (bucket key : String) (sha : Digest) (size : ℕ) (etag : String)
    (nowMs : ℕ) (admitted : Bool) : Except String World :=
  match w.bucketRecord d bucket with
  | none => .error "R2 bucket 不存在"
  | some spec => do
      let storage ← w.resolveStorage d spec.storagePolicy spec.storage sha
      failIf (¬ admitted) "集群配额"
      match (w.database bucket).insertObject key ⟨sha, size, etag, storage, nowMs⟩
          (spec.maxBytes.getD 0) (spec.maxObjects.getD 0) with
      | (db, true) => pure (w.setDatabase bucket db)
      | (_, false) => .error "R2 bucket 配额不足，未写入对象索引"

def createMultipartUpload (w : World) (bucket key id : String) (expiresAtMs : ℕ) :
    Except String World :=
  match w.bucketRecord d bucket with
  | none => .error "R2 bucket 不存在"
  | some spec => do
      let _ ← w.resolveStorage d spec.storagePolicy spec.storage 0
      pure (w.setDatabase bucket ((w.database bucket).insertUpload id
        ⟨key, spec.storage, spec.storagePolicy, expiresAtMs⟩))

/-- `upload_part`, `upload_part_file`. -/
def uploadPart (w : World) (bucket key id : String) (number : ℕ) (sha : Digest) (size : ℕ)
    (etag : String) (nowMs : ℕ) : Except String World :=
  match (w.database bucket).selectUpload id key with
  | none => .error "R2 分片上传不存在"
  | some upload =>
      if upload.expiresAtMs ≤ nowMs then .error "R2 分片上传已过期"
      else do
        let storage ← w.resolveStorage d upload.storagePolicy upload.storage sha
        match (w.database bucket).insertPart id number ⟨sha, size, etag, storage⟩ key nowMs with
        | (db, true) => pure (w.setDatabase bucket db)
        | (_, false) => .error "R2 分片上传不存在、已中止或已过期"

def dropUpload (w : World) (bucket key id : String) : World :=
  w.setDatabase bucket (((w.database bucket).deleteParts id).deleteUpload id key).1

/-- `complete_multipart_upload`: the object is committed, then the upload's rows are dropped. -/
def completeMultipartUpload (w : World) (bucket key id : String) (sha : Digest) (size : ℕ)
    (etag : String) (nowMs : ℕ) (admitted : Bool) : Except String World :=
  match (w.database bucket).selectUpload id key with
  | none => .error "R2 分片上传不存在"
  | some upload =>
      if upload.expiresAtMs ≤ nowMs then .error "R2 分片上传已过期"
      else do
        let w ← w.commitObject d bucket key sha size etag nowMs admitted
        pure (w.dropUpload bucket key id)

def abortMultipartUpload (w : World) (bucket key id : String) : Except String World :=
  match (w.database bucket).selectUpload id key with
  | none => .error "R2 分片上传不存在"
  | some _ => .ok (w.dropUpload bucket key id)

def deleteObject (w : World) (bucket key : String) : Except String World :=
  match w.bucketRecord d bucket with
  | none => .error "R2 bucket 不存在"
  | some _ => .ok (w.setDatabase bucket ((w.database bucket).deleteObject key).1)

end World

inductive Op
  | ingest (v : ResourceView) (d1 : List String) (admitted : Bool)
  | commitObject (bucket key : String) (sha : Digest) (size : ℕ) (etag : String) (nowMs : ℕ)
      (admitted : Bool)
  | createMultipartUpload (bucket key id : String) (expiresAtMs : ℕ)
  | uploadPart (bucket key id : String) (number : ℕ) (sha : Digest) (size : ℕ) (etag : String)
      (nowMs : ℕ)
  | completeMultipartUpload (bucket key id : String) (sha : Digest) (size : ℕ) (etag : String)
      (nowMs : ℕ) (admitted : Bool)
  | abortMultipartUpload (bucket key id : String)
  | deleteObject (bucket key : String)

namespace World

/-- What an operation does, or why it is refused. -/
def apply (w : World) : Op → Except String World
  | .ingest v d1 admitted => w.ingest d v d1 admitted
  | .commitObject bucket key sha size etag nowMs admitted =>
      w.commitObject d bucket key sha size etag nowMs admitted
  | .createMultipartUpload bucket key id expiresAtMs =>
      w.createMultipartUpload d bucket key id expiresAtMs
  | .uploadPart bucket key id number sha size etag nowMs =>
      w.uploadPart d bucket key id number sha size etag nowMs
  | .completeMultipartUpload bucket key id sha size etag nowMs admitted =>
      w.completeMultipartUpload d bucket key id sha size etag nowMs admitted
  | .abortMultipartUpload bucket key id => w.abortMultipartUpload bucket key id
  | .deleteObject bucket key => w.deleteObject d bucket key

/-- An operation that is carried out. -/
def step (w : World) (op : Op) : Option World := (w.apply d op).toOption

/-- The policy in force lists the remote. -/
def lists (w : World) (remote : String) : Bool :=
  (w.current d).toOption.any fun policy => remote ∈ policy.shardRemotes

/-- **The policy in force lists every remote that a row of a live bucket is pinned to.** -/
def Listed (w : World) : Prop :=
  ∀ bucket, (w.bucketRecord d bucket).isSome → ∀ l ∈ (w.database bucket).locations,
    ∀ remote, l.shard = some remote → w.lists d remote

end World

end

end R2

end RandallFlare
