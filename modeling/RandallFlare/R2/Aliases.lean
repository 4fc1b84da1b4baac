import RandallFlare.R2.Tables

/-!
# Locations of one blob

Before `sweep_lifecycle` of `rf/src/r2.rs` deletes the blob of a candidate it asks every live bucket
for rows of the same digest and the same location, as texts.  Where the blob is depends on less than
the text: the slashes around a prefix are trimmed.  Valid locations of one kind share a blob if their
prefixes differ in slashes at the end, an `rclone` and an `rclone_shard` location if the prefix of the
latter ends in the directory that the former adds.

* `StorageLocation.blob`: where the bytes of a digest are;
* `collect`: what a sweep deletes for a candidate;
* `seesThrough_iff` is the result.
-/

namespace RandallFlare

namespace R2

/-- A file in the store of a node, or the target of an `rclone` command. -/
inductive Blob
  | file (sha : Digest)
  | target (text : List Char)
  deriving DecidableEq

/-- A key on a remote, under a prefix. -/
def targetOf (remote keyPrefix : String) (key : List Char) : List Char :=
  remote.toList ++ ':' :: if keyPrefix = "" then key
    else Text.trimEnd (· = '/') (keyPrefix.toList.dropWhile (· = '/')) ++ '/' :: key

def rcloneTarget (remote keyPrefix : String) (sha : Digest) : List Char :=
  let encoded := (hexDigest sha).toList
  targetOf remote keyPrefix ("blobs/".toList ++ encoded.take 2 ++ '/' :: encoded)

def rcloneShardTarget (remote keyPrefix : String) (sha : Digest) : List Char :=
  targetOf remote keyPrefix (hexDigest sha).toList

/-- What `delete` deletes at a location. -/
def StorageLocation.blob (sha : Digest) : StorageLocation → Blob
  | .localDisk => .file sha
  | .rclone remote keyPrefix => .target (rcloneTarget remote keyPrefix sha)
  | .rcloneShard remote keyPrefix => .target (rcloneShardTarget remote keyPrefix sha)

/-- `SELECT … FROM objects WHERE sha256 = ?1 AND storage_json = ?2 UNION ALL …`. -/
def Database.refers (db : Database) (sha : Digest) (storage : StorageLocation) : Bool :=
  db.objects.values.any (fun row => row.sha256 = sha && row.storage = storage) ||
    db.parts.values.any (fun row => row.sha256 = sha && row.storage = storage)

/-- `blob_referenced_anywhere`, of buckets and whether they are deleted. -/
def blobReferencedAnywhere (buckets : List (Bool × Database)) (sha : Digest)
    (storage : StorageLocation) : Bool :=
  buckets.any fun b => !b.1 && b.2.refers sha storage

/-- What `sweep_lifecycle` deletes for a candidate. -/
def collect (buckets : List (Bool × Database)) (c : OrphanRow) : Option Blob :=
  if blobReferencedAnywhere buckets c.sha256 c.storage then none
  else some (c.storage.blob c.sha256)

/-- No sweep for a candidate at `l` deletes the blob of a row at `l'`. -/
def SeesThrough (sha : Digest) (l l' : StorageLocation) : Prop :=
  ∀ (buckets : List (Bool × Database)) (c : OrphanRow), c.sha256 = sha → c.storage = l →
    blobReferencedAnywhere buckets sha l' → collect buckets c ≠ some (l'.blob sha)

def oneObject (sha : Digest) (storage : StorageLocation) : Database :=
  { objects := SortedMap.empty.insert "k" ⟨sha, 1, "e", storage, 5⟩ }

/-- **A sweep sees through two locations exactly if they are not two texts for one blob.** -/
theorem seesThrough_iff (sha : Digest) (l l' : StorageLocation) :
    SeesThrough sha l l' ↔ (l.blob sha = l'.blob sha → l = l') := by
  constructor
  · intro h hblob
    by_contra hne
    have hrefers : ∀ k, (oneObject sha l').refers sha k = decide (l' = k) := fun k => by
      simp [Database.refers, oneObject, SortedMap.values, SortedMap.insert, SortedMap.empty,
        SortedMap.insertEntry]
    refine h [(false, oneObject sha l')] ⟨sha, l, 1, 0⟩ rfl rfl ?_ ?_
    · simp [blobReferencedAnywhere, hrefers]
    · simp [collect, blobReferencedAnywhere, hrefers, Ne.symm hne, hblob]
  · rintro h buckets c rfl rfl href hcollect
    unfold collect at hcollect
    split_ifs at hcollect with hno
    rw [← h (Option.some.inj hcollect)] at href
    exact hno href

/-- A slash at the end of a prefix changes the text, and not the blob. -/
theorem slash_not_seesThrough : StorageLocation.validate (.rclone "s3" "a") = .ok () ∧
      StorageLocation.validate (.rclone "s3" "a/") = .ok () ∧
      ¬ SeesThrough 7 (.rclone "s3" "a") (.rclone "s3" "a/") := by
  refine ⟨rfl, rfl, fun h => h [(false, oneObject 7 (.rclone "s3" "a/"))]
    ⟨7, .rclone "s3" "a", 1, 0⟩ rfl rfl ?_ ?_⟩
  · decide
  · decide

end R2

end RandallFlare
