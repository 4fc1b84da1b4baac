import RandallFlare.R2.Policy

/-!
# Pinned shards stay listed

The policy in force lists every remote that a row of a live bucket is pinned to, as long as no
operation does one of three things that the check of a policy change does not see.

* `Safe`, `listed_of_safe`, `tombstone_unlisted`.
-/

namespace RandallFlare

open ResourceView SortedMap List Runs

namespace R2

open Fallible (bind_eq_ok)

/-! ### Heads -/

/-- Records are told apart by their digests and have versions. -/
structure Distinct (l : List ResourceView) : Prop where
  version : ∀ v ∈ l, v.resource.version ≠ 0
  digest : ∀ v ∈ l, ∀ w ∈ l, v.digest = w.digest → v = w

section Heads

variable {l : List ResourceView} {kind name : String} {v : ResourceView}

theorem Distinct.mem_recordsIn (hl : Distinct l) :
    v ∈ recordsIn l ↔ resourceLineage.Connected {w | w ∈ l ∧ w.id = v.id} v :=
  mem_connected hl.version hl.digest

/-- The records of a resource that count. -/
def counting (l : List ResourceView) (kind name : String) : Set ResourceView :=
  {v | v ∈ recordsIn l ∧ v.resource.kind = kind ∧ v.resource.name = name}

theorem isTop_headIn : Latest.IsTop rank (counting l kind name) (headIn l kind name) := by
  have htop : Latest.IsTop rank
      {w | w ∈ (recordsIn l).filter fun v => v.resource.kind = kind ∧ v.resource.name = name}
      (headIn l kind name) := by
    refine Latest.isTop_foldl_of (fun v => rfl) (fun b v => ?_) _
    dsimp only
    split_ifs with hlt
    · exact .inl ⟨rfl, hlt.le⟩
    · exact .inr ⟨rfl, not_lt.1 hlt⟩
  simpa [counting] using htop

theorem Distinct.eq_of_rank (hl : Distinct l) {w : ResourceView} (hv : v ∈ recordsIn l)
    (hw : w ∈ recordsIn l) (h : v.rank = w.rank) : v = w :=
  hl.digest v (hl.mem_recordsIn.1 hv).mem.1 w (hl.mem_recordsIn.1 hw).mem.1
    (congrArg (fun r => (ofLex r).2) h)

theorem Distinct.headIn_eq (hl : Distinct l) {r : Option ResourceView}
    (h : Latest.IsTop rank (counting l kind name) r) : headIn l kind name = r :=
  isTop_headIn.eq (fun y hy z hz hley hlez =>
    hl.eq_of_rank hy.1 hz.1 (le_antisymm (hlez y hy) (hley z hz))) h

/-- A record of another resource does not change the head. -/
theorem Distinct.headIn_append_of_ne (hl : Distinct (l ++ [v]))
    (hne : v.id ≠ toLex (kind, name)) : headIn (l ++ [v]) kind name = headIn l kind name := by
  refine hl.headIn_eq ?_
  have hl' : Distinct l := ⟨fun w hw => hl.version w (mem_append_left _ hw),
    fun w hw u hu => hl.digest w (mem_append_left _ hw) u (mem_append_left _ hu)⟩
  have hset : counting (l ++ [v]) kind name = counting l kind name := by
    ext w
    refine and_congr_left ?_
    rintro ⟨rfl, rfl⟩
    have hsub : {u | u ∈ l ++ [v] ∧ u.id = w.id} = {u | u ∈ l ∧ u.id = w.id} := by
      ext u
      simp only [Set.mem_ofPred_eq, mem_append, mem_singleton]
      refine and_congr_left fun hid => ⟨fun h => h.resolve_right ?_, .inl⟩
      rintro rfl
      exact hne hid
    rw [hl.mem_recordsIn, hl'.mem_recordsIn, hsub]
  rw [hset]
  exact isTop_headIn

/-- All records of the resource count. -/
def Chained (l : List ResourceView) (kind name : String) : Prop :=
  ∀ v ∈ l, v.id = toLex (kind, name) →
    resourceLineage.Connected {w | w ∈ l ∧ w.id = toLex (kind, name)} v

/-- The record is one of version 1, or the one it follows is there. -/
def follows (l : List ResourceView) (v : ResourceView) : Bool :=
  (v.resource.version = 1 && v.resource.prev.isNone) || l.any fun p =>
    p.id = v.id && v.resource.prev.map hexDigest = some p.digest &&
      v.resource.version = p.resource.version + 1

theorem Chained.append (h : Chained l kind name)
    (hv : v.id = toLex (kind, name) → follows l v) : Chained (l ++ [v]) kind name := by
  have hsub : {w | w ∈ l ∧ w.id = toLex (kind, name)} ⊆
      {w | w ∈ l ++ [v] ∧ w.id = toLex (kind, name)} :=
    fun w hw => ⟨mem_append_left _ hw.1, hw.2⟩
  intro w hw hid
  rcases mem_append.1 hw with hw | hw
  · exact (h w hw hid).mono hsub
  · obtain rfl := mem_singleton.1 hw
    have hfollows := hv hid
    simp only [follows, Bool.or_eq_true, Bool.and_eq_true, decide_eq_true_eq,
      Option.isNone_iff_eq_none, any_eq_true] at hfollows
    have hmem : w ∈ l ++ [w] := mem_append_right _ hw
    rcases hfollows with ⟨hone, hprev⟩ | ⟨p, hp, ⟨hpid, hprev⟩, hversion⟩
    · exact .first ⟨hmem, hid⟩ hone (by simp [resourceLineage, hprev])
    · exact .next ⟨hmem, hid⟩ ((h p hp (hpid.trans hid)).mono hsub) hprev hversion

theorem Distinct.mem_counting (hl : Distinct l) (h : Chained l kind name) :
    v ∈ counting l kind name ↔ v ∈ l ∧ v.id = toLex (kind, name) := by
  constructor
  · rintro ⟨hv, rfl, rfl⟩
    exact ⟨(hl.mem_recordsIn.1 hv).mem.1, rfl⟩
  · rintro ⟨hv, hid⟩
    refine ⟨hl.mem_recordsIn.2 ?_, Prod.mk.inj (toLex.injective hid)⟩
    rw [hid]
    exact h v hv hid

/-- A record whose predecessor is there becomes the head or leaves it as it is. -/
theorem Distinct.headIn_append (hl : Distinct (l ++ [v])) (hl' : Distinct l)
    (h : Chained l kind name) (hv : v.id = toLex (kind, name) → follows l v) :
    headIn (l ++ [v]) kind name = headIn l kind name ∨ headIn (l ++ [v]) kind name = some v := by
  by_cases hid : v.id = toLex (kind, name)
  · have hset : counting (l ++ [v]) kind name = insert v (counting l kind name) := by
      ext w
      rw [Set.mem_insert_iff, hl.mem_counting (h.append hv), hl'.mem_counting h, mem_append,
        mem_singleton]
      constructor
      · rintro ⟨hw | rfl, hwid⟩
        · exact .inr ⟨hw, hwid⟩
        · exact .inl rfl
      · rintro (rfl | ⟨hw, hwid⟩)
        · exact ⟨.inr rfl, hid⟩
        · exact ⟨.inl hw, hwid⟩
    have htop : Latest.IsTop rank (insert v (counting l kind name))
        (Latest.keep rank (headIn l kind name) v) := isTop_headIn.keep v
    rw [← hset] at htop
    rw [hl.headIn_eq htop]
    exact Latest.keep_cases _ _ _
  · exact .inl (hl.headIn_append_of_ne hid)

theorem Distinct.mem_headsIn (hl : Distinct l) (h : headIn l kind name = some v) :
    v ∈ headsIn l kind := by
  have htop : Latest.IsTop rank (counting l kind name) (headIn l kind name) := isTop_headIn
  rw [h] at htop
  obtain ⟨-, hkind, hname⟩ := htop.1
  have hid : ∀ w : ResourceView, w.id = v.id ↔ w.resource.kind = kind ∧ w.resource.name = name := by
    intro w
    rw [← hkind, ← hname]
    exact ⟨fun hid => Prod.mk.inj (toLex.injective hid), fun ⟨h1, h2⟩ => by
      rw [ResourceView.id, ResourceView.id, h1, h2]⟩
  have hlatest := isTop_latestBy ResourceView.id ResourceView.rank
    ((recordsIn l).filter (·.resource.kind = kind)) v.id
  have hset : {w | w ∈ (recordsIn l).filter (·.resource.kind = kind) ∧ w.id = v.id} =
      counting l kind name := by
    ext w
    simp only [Set.mem_ofPred_eq, mem_filter, decide_eq_true_eq, hid, counting]
    exact ⟨fun h => ⟨h.1.1, h.2⟩, fun h => ⟨⟨h.1, h.2.1⟩, h.2⟩⟩
  rw [hset] at hlatest
  refine (mem_values _).2 ⟨v.id, ?_⟩
  rw [← hl.headIn_eq hlatest, h]

end Heads

/-! ### The count of references -/

section References

variable {d : Decoders} {w : World}

variable {s : BucketSpec} {bucket remote : String}

theorem BucketSpec.shard_of_validate (h : s.validate = .ok ()) : s.storage.shard = none := by
  simp only [BucketSpec.validate, bind_eq_ok] at h
  obtain ⟨-, -, -, -, u, hshard, -⟩ := h
  simpa using hshard

theorem bucketRecord_eq_some
    (h : w.bucketRecord d bucket = some s) : ∃ v, headIn w.resources bucketKind bucket = some v ∧
      v.resource.deleted = false ∧ bucketSpec d v.resource = .ok s := by
  simp only [World.bucketRecord] at h
  split at h
  · cases h
  · rename_i v hv
    split_ifs at h with hdeleted
    exact ⟨v, hv, by simpa using hdeleted, Fallible.toOption_eq_some.1 h⟩

theorem mem_bucketRecords (hw : Distinct w.resources)
    (h : w.bucketRecord d bucket = some s) : (bucket, s) ∈ w.bucketRecords d := by
  obtain ⟨v, hv, hdeleted, hs⟩ := bucketRecord_eq_some h
  have htop : Latest.IsTop rank (counting w.resources bucketKind bucket)
      (headIn w.resources bucketKind bucket) := isTop_headIn
  rw [hv] at htop
  simp only [World.bucketRecords, mem_filterMap, mem_filter]
  refine ⟨v, ⟨hw.mem_headsIn hv, by simp [hdeleted]⟩, ?_⟩
  simp [hs, Except.toOption, htop.1.2.2]

theorem addGroup_pos {totals : SortedMap String ℕ} {g : StorageLocation × ℕ}
    (h : ∃ n, totals.get remote = some n ∧ 0 < n) :
    ∃ n, (World.addGroup totals g).get remote = some n ∧ 0 < n := by
  obtain ⟨n, hn, hpos⟩ := h
  unfold World.addGroup
  cases g.1.shard with
  | none => exact ⟨n, hn, hpos⟩
  | some other =>
    rw [get_insert]
    split_ifs with heq
    · subst heq
      rw [hn, Option.getD_some]
      exact ⟨_, rfl, by omega⟩
    · exact ⟨n, hn, hpos⟩

/-- Every row of a live bucket that is pinned to a shard is counted. -/
theorem shardReferences_pos (hw : Distinct w.resources)
    (hbucket : (w.bucketRecord d bucket).isSome) {l : StorageLocation}
    (hl : l ∈ (w.database bucket).locations) (hshard : l.shard = some remote) :
    ∃ n, (w.shardReferences d).get remote = some n ∧ 0 < n := by
  obtain ⟨s, hs⟩ := Option.isSome_iff_exists.1 hbucket
  have hcount : 0 < (w.database bucket).locations.count l := count_pos_iff.2 hl
  have hmem : (l, (w.database bucket).locations.count l) ∈
      (w.bucketRecords d).flatMap fun p => World.groups (w.database p.1) := by
    refine mem_flatMap.2 ⟨(bucket, s), mem_bucketRecords hw hs, ?_⟩
    exact mem_map.2 ⟨l, mem_dedup.2 hl, rfl⟩
  have hcounted : ∀ totals : SortedMap String ℕ,
      ∃ n, (World.addGroup totals (l, (w.database bucket).locations.count l)).get remote = some n ∧
        0 < n := by
    intro totals
    simp only [World.addGroup, hshard, get_insert_self, Option.some.injEq, exists_eq_left']
    omega
  exact foldl_establish (P := fun _ => True)
    (Q := fun totals : SortedMap String ℕ => ∃ n, totals.get remote = some n ∧ 0 < n) hmem trivial
    (fun _ _ _ _ => trivial) (fun _ _ _ h => addGroup_pos h) fun totals _ => hcounted totals

/-- **A policy change that is let through keeps every remote that a row of a live bucket names.** -/
theorem keeps_of_validateTransition (hw : Distinct w.resources) (hlisted : w.Listed d)
    {d1 : List String} {r : ResourceRecord} (hkind : r.kind = storagePolicyKind)
    (hdeleted : r.deleted = false) (h : w.validateTransition d d1 r = .ok ()) :
    ∃ next, policySpec d r = .ok next ∧ ∀ bucket, (w.bucketRecord d bucket).isSome →
      ∀ l ∈ (w.database bucket).locations, ∀ remote, l.shard = some remote →
        remote ∈ next.shardRemotes := by
  simp only [World.validateTransition, bind_eq_ok, hkind, hdeleted, ne_eq, not_true_eq_false,
    Bool.false_eq_true, or_self, if_false] at h
  obtain ⟨-, -, next, hnext, -, -, current, hcurrent, h⟩ := h
  refine ⟨next, hnext, fun bucket hbucket l hl remote hshard => ?_⟩
  have hlists := hlisted bucket hbucket l hl remote hshard
  simp only [World.lists, hcurrent, Except.toOption, Option.any_some, decide_eq_true_eq] at hlists
  by_contra hnot
  have hremoved : remote ∈ current.shardRemotes.filter (· ∉ next.shardRemotes) := by
    simp [hlists, hnot]
  rw [if_neg (ne_nil_of_mem hremoved)] at h
  obtain ⟨n, hget, hpos⟩ := shardReferences_pos hw hbucket hl hshard
  rw [Fallible.failIf_eq_ok, not_not] at h
  refine ne_nil_of_mem (mem_filter.2 ⟨(get_eq_some_iff _).1 hget, ?_⟩) h
  simp only [decide_eq_true_eq]
  exact ⟨hremoved, hpos⟩

end References

/-! ### Writes -/

section Writes

variable {d : Decoders} {w : World}

theorem lists_of_resolveStorage {storagePolicy : Option String} {storage l : StorageLocation}
    {sha : Digest} (hstorage : storage.shard = none)
    (h : w.resolveStorage d storagePolicy storage sha = .ok l) {remote : String}
    (hshard : l.shard = some remote) : w.lists d remote := by
  cases storagePolicy with
  | none =>
    obtain rfl : storage = l := Except.ok.inj h
    rw [hstorage] at hshard
    cases hshard
  | some name =>
    simp only [World.resolveStorage, World.resolve] at h
    split_ifs at h
    obtain ⟨policy, hpolicy, h⟩ := bind_eq_ok.1 h
    split at h
    · cases h
    · rename_i found hfound
      cases h
      obtain ⟨i, -, hi⟩ := Option.bind_eq_some_iff.1 hfound
      obtain rfl : found = remote := Option.some.inj hshard
      simp [World.lists, hpolicy, Except.toOption, mem_of_getElem? hi]

theorem World.Listed.setDatabase (h : w.Listed d) {bucket : String} {db : Database}
    (hdb : ∀ l ∈ db.locations, l ∈ (w.database bucket).locations ∨
      ∀ remote, l.shard = some remote → w.lists d remote) : (w.setDatabase bucket db).Listed d := by
  intro other hother l hl remote hshard
  simp only [World.database, World.setDatabase, get_insert] at hl
  split_ifs at hl with heq
  · subst heq
    rcases hdb l hl with hold | hnew
    · exact h other hother l hold remote hshard
    · exact hnew remote hshard
  · exact h other hother l hl remote hshard

end Writes

/-! ### Runs -/

namespace World

/-- What an operation must not do.  A policy record comes after the one it follows, and a tombstone
does not take the place of a policy while a row of a live bucket is pinned to a shard; a record of
a bucket that is not live does not come while a row of its database names a remote that the policy
does not list. -/
def safe (d : Decoders) (w : World) : Op → Bool
  | .ingest v _ _ => v ∈ w.resources ||
      (v.id != toLex (storagePolicyKind, defaultPolicyName) || follows w.resources v &&
        (!v.resource.deleted ||
          (headIn w.resources storagePolicyKind defaultPolicyName).any (fun b => v.rank < b.rank) ||
          (w.bucketRecords d).all fun p => (w.database p.1).locations.all (·.shard.isNone))) &&
      (v.resource.kind != bucketKind || (w.bucketRecord d v.resource.name).isSome ||
        (w.database v.resource.name).locations.all fun l => l.shard.all (w.lists d))
  | _ => true

end World

open RandallFlare.R2.World

def Op.record : Op → Option ResourceView
  | .ingest v _ _ => some v
  | _ => none

/-- What holds after every operation, of the records that are ever brought. -/
structure Inv (d : Decoders) (views : List ResourceView) (w : World) : Prop where
  known : ∀ v ∈ w.resources, v ∈ views
  version : ∀ v ∈ w.resources, v.resource.version ≠ 0
  chained : Chained w.resources storagePolicyKind defaultPolicyName
  fixed : ∀ bucket id row, (w.database bucket).uploads.get id = some row →
    row.storage.shard = none
  listed : w.Listed d

section Runs

variable {d : Decoders} {views : List ResourceView} {w w' : World}

theorem database_setDatabase (bucket other : String) (db : Database) :
    (w.setDatabase bucket db).database other = if other = bucket then db else w.database other := by
  simp only [database, setDatabase, get_insert]
  split_ifs <;> rfl

variable {bucket : String} {s : BucketSpec} {key : String} {sha : Digest} {size : ℕ} {etag : String}
  {nowMs : ℕ} {admitted : Bool} {id : String} {v : ResourceView} {d1 : List String}

theorem Inv.setDatabase (h : Inv d views w) {db : Database}
    (hdb : ∀ l ∈ db.locations, l ∈ (w.database bucket).locations ∨
      ∀ remote, l.shard = some remote → w.lists d remote)
    (huploads : ∀ id row, db.uploads.get id = some row → row.storage.shard = none) :
    Inv d views (w.setDatabase bucket db) where
  known := h.known
  version := h.version
  chained := h.chained
  fixed := by
    intro other id row hrow
    rw [database_setDatabase] at hrow
    split_ifs at hrow
    · exact huploads id row hrow
    · exact h.fixed other id row hrow
  listed := World.Listed.setDatabase h.listed hdb

theorem bucketSpec_shard {r : ResourceRecord} (h : bucketSpec d r = .ok s) :
    s.storage.shard = none := by
  unfold bucketSpec at h
  split_ifs at h
  split at h
  · cases h
  · obtain ⟨u, hu, h⟩ := bind_eq_ok.1 h
    cases h
    exact BucketSpec.shard_of_validate hu

theorem bucketRecord_shard (h : w.bucketRecord d bucket = some s) : s.storage.shard = none := by
  obtain ⟨v, -, -, hs⟩ := bucketRecord_eq_some h
  exact bucketSpec_shard hs

theorem Inv.commitObject (h : Inv d views w)
    (hok : w.commitObject d bucket key sha size etag nowMs admitted = .ok w') : Inv d views w' := by
  unfold World.commitObject at hok
  cases hbucket : w.bucketRecord d bucket with
  | none => simp [hbucket] at hok
  | some spec =>
    simp only [hbucket, bind_eq_ok] at hok
    obtain ⟨storage, hstorage, -, -, hok⟩ := hok
    split at hok
    · rename_i db hinsert
      cases hok
      have hdb := congrArg Prod.fst hinsert
      subst hdb
      refine h.setDatabase (fun l hl => ?_) fun id row hrow => ?_
      · refine (Database.locations_insertObject hl).imp id ?_
        rintro rfl remote hshard
        exact lists_of_resolveStorage (bucketRecord_shard hbucket) hstorage hshard
      · rw [Database.uploads_insertObject] at hrow
        exact h.fixed bucket id row hrow
    · cases hok

theorem Inv.dropUpload (h : Inv d views w) (bucket key id : String) :
    Inv d views (w.dropUpload bucket key id) := by
  refine h.setDatabase (fun l hl => .inl ?_) fun other row hrow => ?_
  · exact Database.locations_deleteParts hl
  · simp only [Database.deleteUpload, Database.deleteParts, get_filter] at hrow
    exact h.fixed bucket other row (Option.filter_eq_some_iff.1 hrow).1

theorem Inv.createMultipartUpload (h : Inv d views w) {expiresAtMs : ℕ}
    (hok : w.createMultipartUpload d bucket key id expiresAtMs = .ok w') : Inv d views w' := by
  unfold World.createMultipartUpload at hok
  cases hbucket : w.bucketRecord d bucket with
  | none => simp [hbucket] at hok
  | some spec =>
    simp only [hbucket, bind_eq_ok] at hok
    obtain ⟨-, -, hok⟩ := hok
    cases hok
    refine h.setDatabase (fun l hl => .inl hl) fun other row hrow => ?_
    simp only [Database.insertUpload, get_insert] at hrow
    split_ifs at hrow
    · cases hrow
      exact bucketRecord_shard hbucket
    · exact h.fixed bucket other row hrow

theorem Inv.uploadPart (h : Inv d views w) {number : ℕ}
    (hok : w.uploadPart d bucket key id number sha size etag nowMs = .ok w') : Inv d views w' := by
  unfold World.uploadPart at hok
  cases hupload : (w.database bucket).selectUpload id key with
  | none => simp [hupload] at hok
  | some upload =>
    have hfixed := h.fixed bucket id upload (Option.filter_eq_some_iff.1 hupload).1
    simp only [hupload] at hok
    split_ifs at hok
    obtain ⟨storage, hstorage, hok⟩ := bind_eq_ok.1 hok
    split at hok
    · rename_i db hinsert
      cases hok
      have hdb := congrArg Prod.fst hinsert
      subst hdb
      refine h.setDatabase (fun l hl => ?_) fun other row hrow => ?_
      · refine (Database.locations_insertPart hl).imp (fun hold => hold) ?_
        rintro rfl remote hshard
        exact lists_of_resolveStorage hfixed hstorage hshard
      · rw [Database.uploads_insertPart] at hrow
        exact h.fixed bucket other row hrow
    · cases hok

variable (hsha : ∀ v ∈ views, ∀ u ∈ views, v.digest = u.digest → v = u) (h : Inv d views w)

include hsha h

theorem Inv.distinct : Distinct w.resources :=
  ⟨h.version, fun v hv u hu => hsha v (h.known v hv) u (h.known u hu)⟩

/-- A record that is new to the node keeps the rows of live buckets on listed remotes. -/
theorem Inv.listed_append (hl : Distinct (w.resources ++ [v])) (hv : v ∉ w.resources)
    (htransition : w.validateTransition d d1 v.resource = .ok ())
    (hsafe : w.safe d (.ingest v d1 true)) :
    World.Listed d { w with resources := w.resources ++ [v] } := by
  have hw := h.distinct hsha
  simp only [safe, hv, decide_false, Bool.false_or, Bool.and_eq_true, Bool.or_eq_true,
    bne_iff_ne, all_eq_true, Bool.not_eq_true'] at hsafe
  obtain ⟨hpolicy, hbucket⟩ := hsafe
  intro bucket hlive l hmem remote hshard
  -- The remote is listed before, whether or not the bucket was live then.
  have hbefore : (w.bucketRecord d bucket).isSome ∨
      v.id = toLex (bucketKind, bucket) ∧ w.lists d remote := by
    by_cases hid : v.id = toLex (bucketKind, bucket)
    · obtain ⟨hkind, rfl⟩ : v.resource.kind = bucketKind ∧ v.resource.name = bucket :=
        Prod.mk.inj (toLex.injective hid)
      rcases hbucket with (hne | hsome) | hrows
      · exact absurd hkind hne
      · exact .inl hsome
      · have := hrows l hmem
        rw [hshard, Option.all_some] at this
        exact .inr ⟨hid, this⟩
    · left
      rw [bucketRecord, ← hl.headIn_append_of_ne hid]
      exact hlive
  have hlists : w.lists d remote :=
    hbefore.elim (fun hsome => h.listed bucket hsome l hmem remote hshard) And.right
  have hfollows : v.id = toLex (storagePolicyKind, defaultPolicyName) → follows w.resources v :=
    fun hid => (hpolicy.resolve_left (not_not.2 hid)).1
  rcases hl.headIn_append hw h.chained hfollows with hsame | hhead
  · rw [lists, current, hsame]
    exact hlists
  -- The record is the policy in force now.
  · have htop : Latest.IsTop rank
        (counting (w.resources ++ [v]) storagePolicyKind defaultPolicyName) (some v) := by
      rw [← hhead]
      exact isTop_headIn
    obtain ⟨⟨-, hkind, hname⟩, hle⟩ := htop
    have hid : v.id = toLex (storagePolicyKind, defaultPolicyName) := by
      rw [ResourceView.id, hkind, hname]
    have hsome : (w.bucketRecord d bucket).isSome := by
      refine hbefore.resolve_right fun hb => ?_
      have hkinds : storagePolicyKind = bucketKind :=
        congrArg Prod.fst (toLex.injective (hid.symm.trans hb.1))
      exact absurd hkinds (by decide)
    cases hdeleted : v.resource.deleted with
    | true =>
      -- A tombstone: no row of a live bucket is pinned.
      exfalso
      rcases (hpolicy.resolve_left (not_not.2 hid)).2 with (hno | hlower) | hrows
      · rw [hdeleted] at hno
        cases hno
      · obtain ⟨b, hb, hlt⟩ := (Option.any_eq_true _ _).1 hlower
        have hold : Latest.IsTop rank
            (counting w.resources storagePolicyKind defaultPolicyName) (some b) := by
          rw [← hb]
          exact isTop_headIn
        have hb' := (hw.mem_counting h.chained).1 hold.1
        have hmem' := (hl.mem_counting (h.chained.append hfollows)).2
          ⟨mem_append_left [v] hb'.1, hb'.2⟩
        exact absurd (hle b hmem') (not_le.2 (of_decide_eq_true hlt))
      · obtain ⟨s, hs⟩ := Option.isSome_iff_exists.1 hsome
        have := hrows _ (mem_bucketRecords hw hs) l hmem
        rw [hshard] at this
        cases this
    | false =>
      obtain ⟨next, hnext, hkeeps⟩ :=
        keeps_of_validateTransition hw h.listed hkind hdeleted htransition
      have hcurrent : current d { w with resources := w.resources ++ [v] } = .ok next := by
        simp only [current, hhead, hdeleted, hnext, Bool.false_eq_true, if_false]
      simp [lists, hcurrent, Except.toOption, hkeeps bucket hsome l hmem remote hshard]

theorem Inv.ingest (hv : v ∈ views) (hsafe : w.safe d (.ingest v d1 admitted))
    (hok : w.ingest d v d1 admitted = .ok w') : Inv d views w' := by
  simp only [World.ingest, bind_eq_ok] at hok
  obtain ⟨_, hvalid, _, htransition, _, _, _, _, hok⟩ := hok
  cases hok
  split_ifs with hmem
  · exact h
  have hversion : ∀ u ∈ w.resources ++ [v], u.resource.version ≠ 0 := by
    intro u hu
    rcases mem_append.1 hu with hu | hu
    · exact h.version u hu
    · rw [mem_singleton.1 hu]
      exact (ResourceRecord.of_validate hvalid).2.2.2.1
  have hknown : ∀ u ∈ w.resources ++ [v], u ∈ views := by
    intro u hu
    rcases mem_append.1 hu with hu | hu
    · exact h.known u hu
    · exact mem_singleton.1 hu ▸ hv
  have hl : Distinct (w.resources ++ [v]) :=
    ⟨hversion, fun u hu u' hu' => hsha u (hknown u hu) u' (hknown u' hu')⟩
  refine ⟨hknown, hversion, h.chained.append fun hid => ?_, h.fixed,
    h.listed_append hsha hl hmem htransition hsafe⟩
  simp only [safe, hmem, decide_false, Bool.false_or, Bool.and_eq_true, Bool.or_eq_true,
    bne_iff_ne] at hsafe
  exact (hsafe.1.resolve_left (not_not.2 hid)).1

theorem Inv.step {op : Op} (hsafe : w.safe d op)
    (hview : ∀ v, op.record = some v → v ∈ views) (hstep : w.step d op = some w') :
    Inv d views w' := by
  have hok : w.apply d op = .ok w' := Fallible.toOption_eq_some.1 hstep
  cases op with
  | ingest v d1 admitted => exact h.ingest hsha (hview v rfl) hsafe hok
  | commitObject bucket key sha size etag nowMs admitted => exact h.commitObject hok
  | createMultipartUpload bucket key id expiresAtMs => exact h.createMultipartUpload hok
  | uploadPart bucket key id number sha size etag nowMs => exact h.uploadPart hok
  | completeMultipartUpload bucket key id sha size etag nowMs admitted =>
    simp only [apply, completeMultipartUpload] at hok
    split at hok
    · cases hok
    · split_ifs at hok
      obtain ⟨u, hu, hok⟩ := bind_eq_ok.1 hok
      cases hok
      exact (h.commitObject hu).dropUpload bucket key id
  | abortMultipartUpload bucket key id =>
    simp only [apply, abortMultipartUpload] at hok
    split at hok
    · cases hok
    · cases hok
      exact h.dropUpload bucket key id
  | deleteObject bucket key =>
    simp only [apply, deleteObject] at hok
    split at hok
    · cases hok
    · cases hok
      exact h.setDatabase (fun l hl => .inl (Database.locations_deleteObject hl)) (h.fixed bucket)

end Runs

/-- **In every run of safe operations the policy in force lists every remote that a row of a live
bucket is pinned to**, if no two records that are brought have the same digest. -/
theorem listed_of_safe {d : Decoders} {ops : List Op} {w : World}
    (hsha : ∀ v ∈ ops.filterMap Op.record, ∀ u ∈ ops.filterMap Op.record,
      v.digest = u.digest → v = u) (hsafe : Runs.Meets (step d) (fun w op => w.safe d op) {} ops)
    (hrun : run (step d) {} ops = some w) : w.Listed d := by
  have hinit : Inv d (ops.filterMap Op.record) {} :=
    { known := fun v hv => nomatch hv
      version := fun v hv => nomatch hv
      chained := fun v hv => nomatch hv
      fixed := fun bucket id row hrow => nomatch hrow
      listed := fun bucket hlive l hl => nomatch hl }
  refine (run_invariant (fun w op w' h hop hstep => ?_) hinit
    (hsafe.and_mem fun op hop => hop) hrun).listed
  exact h.step hsha hop.1 (fun v hv => mem_filterMap.2 ⟨op, hop.2, hv⟩) hstep

/-! ### A policy that grows, and one that is deleted -/

/-- A policy with the remotes that are named by one letter each. -/
def letterPolicy : JsonTree → Option StoragePolicy
  | .object [(_, .string text)] =>
      some { shardRemotes := text.toList.map fun c => String.ofList [c] }
  | _ => none

/-- A bucket that uses the policy, or one that does not. -/
def flagBucket : JsonTree → Option BucketSpec
  | .object [(_, .bool true)] =>
      some { storage := .localDisk, storagePolicy := some defaultPolicyName }
  | .object [(_, .bool false)] => some { storage := .localDisk }
  | _ => none

def sampleReader : JsonReader := fun text =>
  if text = "null" then some .null
  else if text = "sharded" then some (.object [("sharded", .bool true)])
  else if text = "plain" then some (.object [("sharded", .bool false)])
  else some (.object [("remotes", .string text)])

def sampleDecoders : Decoders := ⟨sampleReader, letterPolicy, flagBucket⟩

def policyView (version : ℕ) (prev : Option Digest) (spec : String) (digest : Digest) :
    ResourceView :=
  ⟨⟨resourceSchema, storagePolicyKind, defaultPolicyName, version, prev, spec = "null", spec⟩,
    hexDigest digest⟩

def bucketView (version : ℕ) (prev : Option Digest) (spec : String) (digest : Digest) :
    ResourceView :=
  ⟨⟨resourceSchema, bucketKind, "photos", version, prev, spec = "null", spec⟩, hexDigest digest⟩

/-- A bucket is created under a policy and an object is put. -/
def pinned : List Op :=
  [.ingest (policyView 1 none "a" 1) [] true, .ingest (bucketView 1 none "sharded" 2) [] true,
    .commitObject "photos" "cat" 7 1 "e" 10 true]

/-- A remote is added. -/
def grown : List Op := pinned ++ [.ingest (policyView 2 (some 1) "ab" 3) [] true]

theorem listed_of_safe_grown :
    ∃ w, run (step sampleDecoders) {} grown = some w ∧ w.Listed sampleDecoders := by
  exact exists_of_view (fun _ => ()) (v := ()) (by decide +kernel) fun w hw _ =>
    listed_of_safe (by decide +kernel) (by decide +kernel) hw

/-- The bucket leaves the policy, and the policy is deleted. -/
def deletedUnder : List Op :=
  pinned ++ [.ingest (bucketView 2 (some 2) "plain" 4) [] true,
    .ingest (policyView 2 (some 1) "null" 3) [] true]

/-- The object is on a remote that no policy lists. -/
theorem tombstone_unlisted : ∃ w, run (step sampleDecoders) {} deletedUnder = some w ∧
    ¬ w.Listed sampleDecoders := by
  obtain ⟨w, hw, hlive, hrows, hlists⟩ : ∃ w ∈ run (step sampleDecoders) {} deletedUnder,
      (w.bucketRecord sampleDecoders "photos").isSome ∧
      (w.database "photos").locations = [.rcloneShard "a" ""] ∧
      w.lists sampleDecoders "a" = false := by
    decide +kernel
  refine ⟨w, hw, fun h => ?_⟩
  have := h "photos" hlive (.rcloneShard "a" "") (by simp [hrows]) "a" rfl
  rw [hlists] at this
  cases this

end R2

end RandallFlare
