import RandallFlare.Lib.Runs
import RandallFlare.R2.Tables

/-!
# The limits of a bucket

The statements of `rf/src/r2.rs` that change the objects of a bucket.  The one that commits an object
checks the limits of the bucket itself, whichever nodes run the others before it.

* `Database.execute`: one statement, and `Database.after`: a run of them;
* `Database.within_limits` is the result.
-/

namespace RandallFlare

open SortedMap

namespace R2

inductive ObjectStatement
  | commit (key : String) (row : ObjectRow)
  | delete (key : String)
  | expire (key : String) (sha256 : Digest) (uploadedAtMs : ℕ)

namespace Database

/-- `DELETE FROM objects WHERE key = ?1 AND sha256 = ?2 AND uploaded_at_ms = ?3`. -/
def expireObject (db : Database) (key : String) (sha256 : Digest) (uploadedAtMs : ℕ) :
    Database × Bool :=
  let expired (row : ObjectRow) := row.sha256 = sha256 && row.uploadedAtMs = uploadedAtMs
  ({ db with objects := db.objects.filter fun k row => !(k = key && expired row) },
    (db.objects.get key).any expired)

/-- What `index_committed_object`, `delete_object` and `sweep_lifecycle` run on the objects. -/
def execute (spec : BucketSpec) (db : Database) : ObjectStatement → Database × Bool
  | .commit key row => db.insertObject key row (spec.maxBytes.getD 0) (spec.maxObjects.getD 0)
  | .delete key => db.deleteObject key
  | .expire key sha256 uploadedAtMs => db.expireObject key sha256 uploadedAtMs

/-- The database after statements, run one after the other. -/
def after (spec : BucketSpec) (sts : List ObjectStatement) : Database :=
  sts.foldl (fun db st => (db.execute spec st).1) {}

theorem usage_insert (db : Database) (key : String) (row : ObjectRow) :
    bytes { db with objects := db.objects.insert key row } =
        row.size + (db.deleteObject key).1.bytes ∧
      count { db with objects := db.objects.insert key row } = (db.deleteObject key).1.count + 1 := by
  have hperm := perm_insert db.objects key row
  exact ⟨((hperm.map Prod.snd).map ObjectRow.size).sum_eq, hperm.length_eq⟩

theorem usage_eq (db : Database) (key : String) :
    db.bytes = (db.objects.get key).elim 0 ObjectRow.size + (db.deleteObject key).1.bytes ∧
      db.count = (db.deleteObject key).1.count + if (db.objects.get key).isSome then 1 else 0 := by
  cases h : db.objects.get key with
  | none =>
    have hsame : db.objects.erase key = db.objects := ext_get fun k => by
      rw [get_erase]
      split_ifs with hk
      · rw [hk, h]
      · rfl
    simp [deleteObject, hsame]
  | some row =>
    have husage := usage_insert db key row
    rwa [insert_of_get h] at husage

theorem usage_filter (db : Database) (p : String → ObjectRow → Bool) :
    bytes { db with objects := db.objects.filter p } ≤ db.bytes ∧
      count { db with objects := db.objects.filter p } ≤ db.count := by
  have hsub : (db.objects.filter p).entries.Sublist db.objects.entries := List.filter_sublist
  exact ⟨((hsub.map _).map _).sum_le_sum fun _ _ => Nat.zero_le _, hsub.length_le⟩

section

variable {spec : BucketSpec} {maxBytes maxObjects : ℕ} (hbytes : spec.maxBytes = some maxBytes)
  (hobjects : spec.maxObjects = some maxObjects) (hb : 0 < maxBytes) (ho : 0 < maxObjects)

include hbytes hobjects hb ho

theorem execute_within {db : Database} (h : db.bytes ≤ maxBytes ∧ db.count ≤ maxObjects)
    (st : ObjectStatement) :
    (db.execute spec st).1.bytes ≤ maxBytes ∧ (db.execute spec st).1.count ≤ maxObjects := by
  have hdrop : ∀ p, bytes { db with objects := db.objects.filter p } ≤ maxBytes ∧
      count { db with objects := db.objects.filter p } ≤ maxObjects := fun p =>
    (usage_filter db p).imp h.1.trans' h.2.trans'
  cases st with
  | commit key row =>
    simp only [execute, insertObject, hbytes, hobjects, Option.getD_some]
    split_ifs with hadmits
    · obtain ⟨hsum, hcount⟩ := usage_insert db key row
      obtain ⟨hsum', hcount'⟩ := usage_eq db key
      simp only [admits, hb.ne', ho.ne', decide_false, Bool.false_or, Bool.and_eq_true,
        Bool.or_eq_true, decide_eq_true_eq] at hadmits
      dsimp only
      refine ⟨by omega, ?_⟩
      split_ifs at hcount' with hold
      · omega
      · have := hadmits.2.resolve_left hold
        omega
    · exact h
  | delete key => exact hdrop _
  | expire key sha256 uploadedAtMs => exact hdrop _

/-- **In every run of statements the objects of a bucket stay within its limits, and a commit that
is refused changes nothing.** -/
theorem within_limits (sts : List ObjectStatement) :
    (after spec sts).bytes ≤ maxBytes ∧ (after spec sts).count ≤ maxObjects ∧
      ∀ key row, ((after spec sts).execute spec (.commit key row)).2 = false →
        ((after spec sts).execute spec (.commit key row)).1 = after spec sts := by
  have hrun : (after spec sts).bytes ≤ maxBytes ∧ (after spec sts).count ≤ maxObjects :=
    Runs.foldl_invariant (P := fun db : Database => db.bytes ≤ maxBytes ∧ db.count ≤ maxObjects)
      ⟨Nat.zero_le _, Nat.zero_le _⟩ fun db st _ h => execute_within hbytes hobjects hb ho h st
  refine ⟨hrun.1, hrun.2, fun key row hrefused => ?_⟩
  simp only [execute, insertObject] at hrefused ⊢
  split_ifs at hrefused ⊢
  rfl

end

/-- A second object does not fit, and does once the first is overwritten. -/
theorem within_limits_overwritten :
    (after { storage := .localDisk, maxBytes := some 9, maxObjects := some 2 }
      [.commit "a" ⟨1, 6, "e", .localDisk, 5⟩, .commit "b" ⟨2, 6, "e", .localDisk, 6⟩,
        .commit "a" ⟨3, 3, "e", .localDisk, 7⟩, .commit "b" ⟨2, 6, "e", .localDisk, 8⟩]).bytes ≤ 9 :=
  (within_limits rfl rfl (by decide) (by decide) _).1

end Database

end R2

end RandallFlare
