import RandallFlare.Lib.Fallible
import RandallFlare.Signed.Manifest

/-!
# The metadata of an R2 bucket

A translation of the data of `rf/src/r2.rs`: where bytes are (`rf/src/objectstore.rs`), what a
bucket is configured to be, and the four tables of a bucket's metadata database with the statements
that are run on them.  A statement is one function of the database; the rows affected are returned
where the source reads them.

* `StorageLocation`, `BucketSpec` with their checks;
* `Database`: objects, multipart uploads, their parts, and candidates for collection;
* `insertObject`, `insertPart`, …: the statements.

A location is stored as its JSON text; two locations are equal exactly if the texts are.
-/

namespace RandallFlare

open SortedMap

namespace R2

open Fallible (failIf)
open Postcard (utf8)

/-- Where the bytes of an object are. -/
inductive StorageLocation
  | localDisk
  | rclone (remote keyPrefix : String)
  | rcloneShard (remote keyPrefix : String)
  deriving DecidableEq

def validRemote (remote : String) : Bool :=
  remote ≠ "" && decide ((utf8 remote).length ≤ 128) && !remote.toList.head?.any (· = '-') &&
    remote.toList.all fun c => c.isAlphanum || c = '-' || c = '_' || c = '.'

def validPrefix (keyPrefix : String) : Bool :=
  decide ((utf8 keyPrefix).length ≤ 512) && !keyPrefix.toList.head?.any (· = '/') &&
    !keyPrefix.toList.contains '\x00' &&
    !(keyPrefix.toList.splitOn '/').any fun component => component = ['.'] || component = ['.', '.']

def StorageLocation.validate : StorageLocation → Except String Unit
  | .localDisk => .ok ()
  | .rclone remote keyPrefix | .rcloneShard remote keyPrefix =>
      do failIf (¬ validRemote remote) "rclone remote 名称须由字母、数字、点、下划线或连字符组成"
         failIf (¬ validPrefix keyPrefix) "rclone 对象前缀无效"

/-- The shard remote a location is pinned to. -/
def StorageLocation.shard : StorageLocation → Option String
  | .rcloneShard remote _ => some remote
  | _ => none

def defaultPolicyName : String := "default"

/-- What a bucket is configured to be. -/
structure BucketSpec where
  description : String := ""
  storage : StorageLocation
  storagePolicy : Option String := none
  maxBytes : Option ℕ := none
  maxObjects : Option ℕ := none
  expireObjectsAfterDays : Option ℕ := none
  corsOrigins : List String := []
  hostnames : List String := []
  deriving DecidableEq

namespace BucketSpec

def checkOrigin (origin : String) : Except String Unit := do
  failIf (origin ≠ "*" ∧
      ¬ ("https://".toList <+: origin.toList ∨ "http://".toList <+: origin.toList))
    ("R2 CORS 来源必须是 http(s) origin 或 *：" ++ origin)
  failIf (512 < (utf8 origin).length ∨ origin.toList.any (· ∈ ['\r', '\n'])) "R2 CORS 来源无效"

def validate (s : BucketSpec) : Except String Unit := do
  failIf (2000 < (utf8 s.description).length) "R2 bucket 描述不得超过 2000 个字符"
  s.storage.validate
  failIf s.storage.shard.isSome "R2 bucket 不能直接指定内部 rclone_shard 位置；请使用签名存储策略"
  s.storagePolicy.toList.forM fun policy => do
    failIf (policy ≠ defaultPolicyName) ("R2 bucket 引用了未知存储策略：" ++ policy)
    failIf (s.storage ≠ .localDisk) "使用存储策略的 bucket 不能同时指定固定 rclone remote"
  failIf (s.maxBytes = some 0 ∨ s.maxObjects = some 0) "R2 bucket 配额必须大于零；不限制时请留空"
  failIf (s.expireObjectsAfterDays.any fun days => days = 0 || 36500 < days)
    "R2 生命周期天数必须介于 1 和 36500 之间"
  failIf (256 < s.corsOrigins.length) "R2 CORS 来源不得超过 256 项"
  s.corsOrigins.forM checkOrigin
  failIf (64 < s.hostnames.length) "R2 自定义域名不得超过 64 个"
  s.hostnames.forM fun hostname => failIf (¬ validHostname hostname) ("R2 自定义域名无效：" ++ hostname)

end BucketSpec

/-! ### The tables -/

/-- A row of `objects`, but for its key. -/
structure ObjectRow where
  sha256 : Digest
  size : ℕ
  etag : String
  storage : StorageLocation
  uploadedAtMs : ℕ
  deriving DecidableEq

/-- A row of `multipart_uploads`, but for its id. -/
structure UploadRow where
  key : String
  storage : StorageLocation
  storagePolicy : Option String
  expiresAtMs : ℕ
  deriving DecidableEq

/-- A row of `multipart_parts`, but for its upload and number. -/
structure PartRow where
  sha256 : Digest
  size : ℕ
  etag : String
  storage : StorageLocation
  deriving DecidableEq

/-- A row of `orphan_candidates`. -/
structure OrphanRow where
  sha256 : Digest
  storage : StorageLocation
  size : ℕ
  eligibleAtMs : ℕ
  deriving DecidableEq

/-- The metadata database of a bucket. -/
structure Database where
  objects : SortedMap String ObjectRow := empty
  uploads : SortedMap String UploadRow := empty
  parts : SortedMap (String ×ₗ ℕ) PartRow := empty
  orphans : List OrphanRow := []

namespace Database

/-- `SUM(size)` and `COUNT(*)` of the objects. -/
def bytes (db : Database) : ℕ := (db.objects.values.map ObjectRow.size).sum

def count (db : Database) : ℕ := db.objects.entries.length

/-- The limits of the bucket that the statement checks; zero is none. -/
def admits (db : Database) (key : String) (size maxBytes maxObjects : ℕ) : Bool :=
  let previous := (db.objects.get key).elim 0 ObjectRow.size
  (maxBytes = 0 || decide (db.bytes - previous + size ≤ maxBytes)) &&
    (maxObjects = 0 || (db.objects.get key).isSome || decide (db.count < maxObjects))

/-- `INSERT INTO objects … ON CONFLICT(key) DO UPDATE`. -/
def insertObject (db : Database) (key : String) (row : ObjectRow) (maxBytes maxObjects : ℕ) :
    Database × Bool :=
  if db.admits key row.size maxBytes maxObjects then
    ({ db with objects := db.objects.insert key row }, true)
  else (db, false)

/-- `DELETE FROM objects WHERE key = ?1`. -/
def deleteObject (db : Database) (key : String) : Database × Bool :=
  ({ db with objects := db.objects.erase key }, (db.objects.get key).isSome)

/-- `INSERT INTO multipart_uploads`. -/
def insertUpload (db : Database) (id : String) (row : UploadRow) : Database :=
  { db with uploads := db.uploads.insert id row }

/-- `SELECT … FROM multipart_uploads WHERE upload_id = ?1 AND key = ?2`. -/
def selectUpload (db : Database) (id key : String) : Option UploadRow :=
  (db.uploads.get id).filter (·.key = key)

/-- `DELETE FROM multipart_uploads WHERE upload_id = ?1 AND key = ?2`. -/
def deleteUpload (db : Database) (id key : String) : Database × Bool :=
  ({ db with uploads := db.uploads.filter fun k row => !(k = id && row.key = key) },
    (db.selectUpload id key).isSome)

/-- `INSERT INTO multipart_parts … WHERE EXISTS (…) ON CONFLICT DO UPDATE`. -/
def insertPart (db : Database) (id : String) (number : ℕ) (row : PartRow) (key : String)
    (nowMs : ℕ) : Database × Bool :=
  if (db.selectUpload id key).any (nowMs < ·.expiresAtMs) then
    ({ db with parts := db.parts.insert (toLex (id, number)) row }, true)
  else (db, false)

/-- `DELETE FROM multipart_parts WHERE upload_id = ?1`. -/
def deleteParts (db : Database) (id : String) : Database :=
  { db with parts := db.parts.filter fun k _ => (ofLex k).1 ≠ id }

/-- The locations of the rows of objects and parts. -/
def locations (db : Database) : List StorageLocation :=
  db.objects.values.map ObjectRow.storage ++ db.parts.values.map PartRow.storage

/-! ### What a statement leaves -/

variable {db : Database} {l : StorageLocation} {key id : String}

theorem mem_locations : l ∈ db.locations ↔
    (∃ key row, db.objects.get key = some row ∧ row.storage = l) ∨
      ∃ k row, db.parts.get k = some row ∧ row.storage = l := by
  simp only [locations, List.mem_append, List.mem_map, mem_values]
  constructor
  · rintro (⟨row, ⟨key, hget⟩, rfl⟩ | ⟨row, ⟨k, hget⟩, rfl⟩)
    · exact .inl ⟨key, row, hget, rfl⟩
    · exact .inr ⟨k, row, hget, rfl⟩
  · rintro (⟨key, row, hget, rfl⟩ | ⟨k, row, hget, rfl⟩)
    · exact .inl ⟨row, ⟨key, hget⟩, rfl⟩
    · exact .inr ⟨row, ⟨k, hget⟩, rfl⟩

theorem locations_insertObject {row : ObjectRow} {maxBytes maxObjects : ℕ}
    (h : l ∈ (db.insertObject key row maxBytes maxObjects).1.locations) :
    l ∈ db.locations ∨ l = row.storage := by
  unfold insertObject at h
  split_ifs at h
  · rw [mem_locations] at h ⊢
    simp only [get_insert] at h
    rcases h with ⟨k, r, hget, rfl⟩ | hpart
    · split_ifs at hget
      · exact .inr (by rw [Option.some.inj hget])
      · exact .inl (.inl ⟨k, r, hget, rfl⟩)
    · exact .inl (.inr hpart)
  · exact .inl h

theorem locations_insertPart {number : ℕ} {row : PartRow} {nowMs : ℕ}
    (h : l ∈ (db.insertPart id number row key nowMs).1.locations) :
    l ∈ db.locations ∨ l = row.storage := by
  unfold insertPart at h
  split_ifs at h
  · rw [mem_locations] at h ⊢
    simp only [get_insert] at h
    rcases h with hobject | ⟨k, r, hget, rfl⟩
    · exact .inl (.inl hobject)
    · split_ifs at hget
      · exact .inr (by rw [Option.some.inj hget])
      · exact .inl (.inr ⟨k, r, hget, rfl⟩)
  · exact .inl h

theorem uploads_insertObject (db : Database) (key : String) (row : ObjectRow)
    (maxBytes maxObjects : ℕ) :
    (db.insertObject key row maxBytes maxObjects).1.uploads = db.uploads := by
  unfold insertObject
  split_ifs <;> rfl

theorem uploads_insertPart (db : Database) (id : String) (number : ℕ) (row : PartRow) (key : String)
    (nowMs : ℕ) : (db.insertPart id number row key nowMs).1.uploads = db.uploads := by
  unfold insertPart
  split_ifs <;> rfl

theorem locations_deleteObject (h : l ∈ (db.deleteObject key).1.locations) : l ∈ db.locations := by
  rw [mem_locations] at h ⊢
  refine h.imp ?_ id
  rintro ⟨k, r, hget, rfl⟩
  simp only [deleteObject, get_erase] at hget
  split_ifs at hget
  exact ⟨k, r, hget, rfl⟩

theorem locations_deleteParts (h : l ∈ (db.deleteParts id).locations) : l ∈ db.locations := by
  rw [mem_locations] at h ⊢
  refine h.imp (fun h => h) ?_
  rintro ⟨k, r, hget, rfl⟩
  simp only [deleteParts, get_filter] at hget
  exact ⟨k, r, (Option.filter_eq_some_iff.1 hget).1, rfl⟩

end Database

end R2

end RandallFlare
