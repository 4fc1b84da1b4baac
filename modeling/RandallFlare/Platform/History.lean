import RandallFlare.Platform.Resources
import RandallFlare.Signed.Kinds

/-!
# The history of a resource

What `resource::records`, `head` and `heads` of `rf/src/resource.rs` return for every content of the
namespace, also one that nodes did not write through `ingest`: the records that a chain of shown
records connects to one of version 1, and the highest of them.  A record counts as shown if its value
has not expired and its key starts with its own kind and name.

* `Node.history`: the shown records of one resource;
* `resourceHistory` is the result.
-/

namespace RandallFlare

open List Envelope

variable {x : Crypto} {json : JsonReader} {n : Node} {nowMs : ℕ}

namespace Node

/-- The envelopes that the namespace shows. -/
def envelopes (n : Node) (nowMs : ℕ) : List Envelope :=
  (n.kvDump resourceNamespace).filterMap fun p =>
    (p.2.visible nowMs).bind fun bytes => (fromBytes bytes).toOption

/-- The shown records of one resource. -/
def history (x : Crypto) (json : JsonReader) (n : Node) (nowMs : ℕ) (kind name : String) :
    Set ResourceView :=
  {v | n.Filed x json nowMs v ∧ v.resource.kind = kind ∧ v.resource.name = name}

theorem Filed.eq_of_digest (hsha : x.CollisionFree ((n.envelopes nowMs).map digestInput))
    {v w : ResourceView} (hv : n.Filed x json nowMs v) (hw : n.Filed x json nowMs w)
    (h : v.digest = w.digest) : v = w := by
  have hmem : ∀ {key : String} {e : KvEntry} {bytes : Bytes} {env : Envelope},
      n.inner.kvEntry resourceNamespace key = some e → e.visible nowMs = some bytes →
      fromBytes bytes = .ok env → env ∈ n.envelopes nowMs := by
    intro key e bytes env he hbytes henv
    refine mem_filterMap.2 ⟨(key, e), mem_kvDump.2 he, ?_⟩
    rw [hbytes, Option.bind_some, henv]
    rfl
  obtain ⟨key, e, bytes, env, he, hbytes, henv, hread, -, hd⟩ := hv
  obtain ⟨key', e', bytes', env', he', hbytes', henv', hread', -, hd'⟩ := hw
  have hdigest : env.digest x = env'.digest x := hexDigest_injective (by rw [← hd, ← hd', h])
  obtain rfl : env = env' := Envelope.eq_of_digest_eq hsha (hmem he hbytes henv)
    (hmem he' hbytes' henv') (readResource_eq_ok.1 hread).1 (readResource_eq_ok.1 hread').1 hdigest
  obtain ⟨r, d⟩ := v
  obtain ⟨q, d'⟩ := w
  obtain rfl : r = q := Except.ok.inj (hread.symm.trans hread')
  obtain rfl : d = d' := h
  rfl

theorem history_eq (v : ResourceView) : {w | n.Filed x json nowMs w ∧ w.id = v.id} =
      n.history x json nowMs v.resource.kind v.resource.name := by
  refine Set.ext fun w => and_congr_right fun _ => ?_
  show toLex (w.resource.kind, w.resource.name) = toLex (v.resource.kind, v.resource.name) ↔ _
  rw [toLex.injective.eq_iff, Prod.mk.injEq]

variable {v : ResourceView}

theorem mem_of_mem_connected {l : List ResourceView}
    (h : v ∈ (SortedMap.groupBy ResourceView.id l).values.flatMap connected) : v ∈ l := by
  obtain ⟨g, hg, hv⟩ := mem_flatMap.1 h
  obtain ⟨k, hk⟩ := (SortedMap.mem_values _).1 hg
  rw [SortedMap.eq_filter_of_get_groupBy _ hk] at hv
  have hmem := Lineage.mem_of_mem_scan hv
  rw [mem_insertionSort] at hmem
  exact (mem_filter.1 hmem).1

variable (hsha : x.CollisionFree ((n.envelopes nowMs).map digestInput))

include hsha

theorem mem_records_iff (v : ResourceView) :
    v ∈ n.records x json nowMs (some v.resource.kind) (some v.resource.name) ↔
      resourceLineage.Connected (n.history x json nowMs v.resource.kind v.resource.name) v := by
  rw [← history_eq v]
  exact mem_connected_of_filed (prefix_rfl) fun _ _ hu hw => hu.eq_of_digest hsha hw

theorem mem_records_kind_iff (v : ResourceView) :
    v ∈ n.records x json nowMs (some v.resource.kind) none ↔
      resourceLineage.Connected (n.history x json nowMs v.resource.kind v.resource.name) v := by
  rw [← history_eq v]
  refine mem_connected_of_filed ?_ fun _ _ hu hw => hu.eq_of_digest hsha hw
  exact ⟨v.resource.name.toList ++ ['/'], by simp [ResourceRecord.keyStart]⟩

/-- The head is the connected record of the highest rank. -/
theorem head_eq_some_iff {kind name : String} : n.head x json nowMs kind name = some v ↔
      resourceLineage.Connected (n.history x json nowMs kind name) v ∧
        ∀ w, resourceLineage.Connected (n.history x json nowMs kind name) w → w.rank ≤ v.rank := by
  have hset : {w | w ∈ n.records x json nowMs (some kind) (some name) ∧ w.resource.kind = kind ∧
      w.resource.name = name} =
      {w | resourceLineage.Connected (n.history x json nowMs kind name) w} := by
    refine Set.ext fun w => ⟨?_, fun hw => ?_⟩
    · rintro ⟨hw, rfl, rfl⟩
      exact (mem_records_iff hsha w).1 hw
    · obtain ⟨-, rfl, rfl⟩ := hw.mem
      exact ⟨(mem_records_iff hsha w).2 hw, rfl, rfl⟩
  have htop : Latest.IsTop ResourceView.rank _ (n.head x json nowMs kind name) := isTop_head kind name
  rw [hset] at htop
  constructor
  · intro h
    rw [h] at htop
    exact htop
  · rintro ⟨hv, hle⟩
    cases hhead : n.head x json nowMs kind name with
    | none =>
      rw [hhead] at htop
      exact absurd (show v ∈ (∅ : Set ResourceView) from htop ▸ hv) (Set.notMem_empty v)
    | some w =>
      rw [hhead] at htop
      obtain ⟨hw, hmax⟩ := htop
      have hrank : w.rank = v.rank := le_antisymm (hle w hw) (hmax v hv)
      exact congrArg some (hw.mem.1.eq_of_digest hsha hv.mem.1
        (congrArg (fun r => (ofLex r).2) hrank))

theorem mem_heads_kind_iff : v ∈ n.heads x json nowMs (some v.resource.kind) ↔
      resourceLineage.Connected (n.history x json nowMs v.resource.kind v.resource.name) v ∧
        ∀ w, resourceLineage.Connected
          (n.history x json nowMs v.resource.kind v.resource.name) w → w.rank ≤ v.rank := by
  have hfiled : ∀ {u : ResourceView}, u ∈ n.records x json nowMs (some v.resource.kind) none →
      n.Filed x json nowMs u := fun hu => filed_of_mem_candidates (mem_of_mem_connected hu)
  rw [mem_heads_iff fun u hu w hw => (hfiled hu).eq_of_digest hsha (hfiled hw),
    mem_records_kind_iff hsha]
  refine and_congr_right fun _ => forall_congr' fun w => ⟨fun h hw => ?_, fun h hw hid => ?_⟩
  · obtain ⟨-, hkind, hname⟩ := hw.mem
    rw [← hkind, ← hname] at hw
    refine h (hkind ▸ (mem_records_kind_iff hsha w).2 hw) ?_
    rw [ResourceView.id, hkind, hname]
    rfl
  · obtain ⟨hkind, hname⟩ : w.resource.kind = v.resource.kind ∧ w.resource.name = v.resource.name :=
      Prod.mk.inj (toLex.injective hid)
    rw [← hkind] at hw
    rw [← hkind, ← hname] at h
    exact h ((mem_records_kind_iff hsha w).1 hw)

end Node

/-! ### Keys of other resources -/

theorem slash_not_mem_of_utf8 {s : String} (h : 47 ∉ Postcard.utf8 s) : '/' ∉ s.toList := by
  intro hmem
  refine h ?_
  rw [Postcard.utf8, ← String.ofList_toList (s := s), String.toByteArray_ofList]
  simpa [utf8Encode] using ⟨'/', hmem, by decide⟩

theorem slash_not_mem_of_validate {r : ResourceRecord} (h : r.validate json = .ok ()) :
    '/' ∉ r.kind.toList ∧ '/' ∉ r.name.toList := by
  obtain ⟨-, hkind, hname, -⟩ := ResourceRecord.of_validate h
  simp only [validKind, Bool.and_eq_true, all_eq_true, Bool.or_eq_true, beq_iff_eq] at hkind
  simp only [validName, validLabel, Bool.and_eq_true, all_eq_true, Bool.or_eq_true,
    beq_iff_eq] at hname
  exact ⟨slash_not_mem_of_utf8 fun h => absurd (hkind.2 47 h) (by decide),
    slash_not_mem_of_utf8 fun h => absurd (hname.2 47 h) (by decide)⟩

/-- Two starts of one key are the same if their parts have no slash. -/
theorem eq_of_starts {a b c d key : List Char} (ha : '/' ∉ a) (hb : '/' ∉ b) (hc : '/' ∉ c)
    (hd : '/' ∉ d) (h : a ++ '/' :: (b ++ ['/']) <+: key) (h' : c ++ '/' :: (d ++ ['/']) <+: key) :
    a = c ∧ b = d := by
  obtain ⟨t, rfl⟩ := h
  obtain ⟨u, hu⟩ := h'
  simp only [append_assoc, cons_append, nil_append] at hu
  have hfirst := Text.splitOnce_append hc (b := d ++ '/' :: u)
  rw [hu, Text.splitOnce_append ha] at hfirst
  obtain ⟨rfl, hrest⟩ := Prod.mk.inj (Option.some.inj hfirst)
  have hsecond := Text.splitOnce_append hd (b := u)
  rw [← hrest, Text.splitOnce_append hb] at hsecond
  exact ⟨rfl, (Prod.mk.inj (Option.some.inj hsecond)).1⟩

theorem Node.id_of_mem_records {kind name : String} (hkind : '/' ∉ kind.toList)
    (hname : '/' ∉ name.toList) {v : ResourceView}
    (h : v ∈ n.records x json nowMs (some kind) (some name)) :
    v.resource.kind = kind ∧ v.resource.name = name := by
  obtain ⟨p, -, hread⟩ := mem_filterMap.1 (mem_of_mem_connected h)
  split_ifs at hread with hstart
  obtain ⟨bytes, -, hbytes⟩ := Option.bind_eq_some_iff.1 hread
  obtain ⟨env, -, hread, hkey, -⟩ := ResourceView.read_eq_some.1 hbytes
  obtain ⟨hvkind, hvname⟩ := slash_not_mem_of_validate (readResource_eq_ok.1 hread).2
  obtain ⟨hk, hn⟩ := eq_of_starts hvkind hvname hkind hname hkey hstart
  exact ⟨String.toList_inj.1 hk, String.toList_inj.1 hn⟩

/-- **The records of a resource are those that a chain connects to one of version 1, its head is the
highest of them, and so is its entry among the heads of its kind.** -/
theorem resourceHistory (x : Crypto) (json : JsonReader) (n : Node) (nowMs : ℕ)
    (hsha : x.CollisionFree ((n.envelopes nowMs).map digestInput)) (kind name : String) :
    (∀ v : ResourceView, v.resource.kind = kind → v.resource.name = name →
      (v ∈ n.records x json nowMs (some kind) (some name) ↔
        resourceLineage.Connected (n.history x json nowMs kind name) v)) ∧
    ('/' ∉ kind.toList → '/' ∉ name.toList → ∀ v ∈ n.records x json nowMs (some kind) (some name),
      v.resource.kind = kind ∧ v.resource.name = name) ∧
    ∀ v, (n.head x json nowMs kind name = some v ↔ v ∈ n.heads x json nowMs (some kind) ∧
        v.resource.kind = kind ∧ v.resource.name = name) ∧ (n.head x json nowMs kind name = some v ↔
        resourceLineage.Connected (n.history x json nowMs kind name) v ∧
          ∀ w, resourceLineage.Connected (n.history x json nowMs kind name) w →
            w.rank ≤ v.rank) := by
  refine ⟨?_, fun hkind hname v hv => Node.id_of_mem_records hkind hname hv, fun v =>
    ⟨?_, Node.head_eq_some_iff hsha⟩⟩
  · rintro v rfl rfl
    exact Node.mem_records_iff hsha v
  · rw [Node.head_eq_some_iff hsha]
    constructor
    · rintro ⟨hv, hle⟩
      obtain ⟨-, rfl, rfl⟩ := hv.mem
      exact ⟨(Node.mem_heads_kind_iff hsha).2 ⟨hv, hle⟩, rfl, rfl⟩
    · rintro ⟨hv, rfl, rfl⟩
      exact (Node.mem_heads_kind_iff hsha).1 hv

/-! ### Samples -/

/-- An operator's envelope of a version of a resource. -/
def sampleVersion (version : ℕ) (prev : Option Envelope) : Envelope :=
  .sample sampleOperator (ResourceRecord.encode ⟨1, "k", "a", version,
    prev.map (·.digest sampleCrypto), false, ""⟩)

/-- A node with envelopes under the given keys. -/
def sampleStore (entries : List (String × Envelope)) : Node :=
  let put := fun (inner : Inner) (p : String × Envelope) =>
    inner.putKv resourceNamespace p.1 ⟨⟨5, 0⟩, ⟨1⟩, some p.2.toBytes, none⟩
  { Node.new ⟨0⟩ sampleOperator with
    inner := entries.foldl put (Node.new ⟨0⟩ sampleOperator).inner }

/-- Two linked versions, and a third one that does not link the second. -/
def gappedStore : Node :=
  sampleStore [("k/a/3", sampleVersion 3 (some (sampleVersion 1 none))),
    ("k/a/2", sampleVersion 2 (some (sampleVersion 1 none))), ("k/a/1", sampleVersion 1 none)]

theorem resourceHistory_gapped :
    (gappedStore.head sampleCrypto (fun _ => some (.object [])) 0 "k" "a").map
        (·.resource.version) = some 2 ∧
      ∀ v, gappedStore.head sampleCrypto (fun _ => some (.object [])) 0 "k" "a" = some v ↔
        v ∈ gappedStore.heads sampleCrypto (fun _ => some (.object [])) 0 (some "k") ∧
          v.resource.kind = "k" ∧ v.resource.name = "a" :=
  ⟨by decide +kernel, fun v =>
    ((resourceHistory sampleCrypto _ gappedStore 0 (by decide +kernel) "k" "a").2.2 v).1⟩

/-- A version 1 under a key that does not start with its kind and name is not returned. -/
theorem foreignKey_unread :
    ∃ e r, (sampleStore [("x", sampleVersion 1 none)]).inner.kvEntry resourceNamespace "x" = some e ∧
      e.visible 0 = some (sampleVersion 1 none).toBytes ∧
      fromBytes (sampleVersion 1 none).toBytes = .ok (sampleVersion 1 none) ∧
      readResource sampleCrypto (fun _ => some (.object [])) sampleOperator (sampleVersion 1 none) =
        .ok r ∧ r.version = 1 ∧ r.prev = none ∧
      (sampleStore [("x", sampleVersion 1 none)]).records sampleCrypto (fun _ => some (.object [])) 0
        (some r.kind) (some r.name) = [] :=
  ⟨⟨⟨5, 0⟩, ⟨1⟩, some (sampleVersion 1 none).toBytes, none⟩, ⟨1, "k", "a", 1, none, false, ""⟩,
    by decide +kernel, rfl, by decide +kernel, by decide +kernel, rfl, rfl, by decide +kernel⟩

end RandallFlare
