import RandallFlare.Node.Node

/-!
# Values and their metadata

`kv_put` and `kv_put_with_metadata` of `rf/src/node.rs` write the value of a key and then its
metadata, each under the lock of the node and with a timestamp of its own.  Nodes exchange the two
entries separately and each keeps the later one, so that the value and the metadata that are left can
be of different calls: of two calls, one may have the later value and the other the later metadata.

* `Node.kvGetWithMetadata`;
* `PairState`, `PairState.step`: nodes, and the calls they have taken, half by half;
* `PairState.InOrder`: metadata is written in the order of the values;
* `PairState.Settled`: every call has returned and no exchange changes anything;
* `PairState.Paired`: what is returned is of one call;
* `PairState.paired_of_settled` is the result.
-/

namespace RandallFlare

open Node List Function Runs Option

/-- `Node::kv_get_with_metadata`, with two readings of the clock. -/
def Node.kvGetWithMetadata (x : Crypto) (n : Node) (ns key : String) (wall : ℕ → ℕ) :
    Option (Bytes × Option Bytes) :=
  (n.kvGet ns key (wall 0)).map fun value =>
    (value, n.kvGet (kvMetadataNamespace x ns) key (wall 1))

namespace KvEntry

/-- The timestamp and the writer, by which entries are compared first. -/
def stamp (e : KvEntry) : Hlc ×ₗ ℕ := toLex (e.hlc, e.writer.key.toNat)

theorem rank_lt_of_stamp_lt {h : ValueHash} {e f : KvEntry} (hlt : e.stamp < f.stamp) :
    e.rank h < f.rank h := by
  rcases Prod.Lex.toLex_lt_toLex.1 hlt with hhlc | ⟨hhlc, hwriter⟩
  · exact Prod.Lex.toLex_lt_toLex.2 (.inl hhlc)
  · exact Prod.Lex.toLex_lt_toLex.2 (.inr ⟨hhlc, Prod.Lex.toLex_lt_toLex.2 (.inl hwriter)⟩)

end KvEntry

/-- What `kv_put` and `kv_put_with_metadata` are called with. -/
inductive PutKind
  | plain
  | withMetadata (metadata : Option Bytes)

/-- A call: its node, the entry of its value, what it has still to write and what it has written of
its metadata. -/
structure PutCall (ι : Type) where
  node : ι
  value : KvEntry
  toWrite : Option (Option Bytes × Option ℕ)
  metadata : Option KvEntry

/-- The metadata that a call writes, with its expiry; none in the platform's own namespaces. -/
def PutKind.toWrite (kind : PutKind) (ns : String) (expiresAtMs : Option ℕ) :
    Option (Option Bytes × Option ℕ) :=
  match kind with
  | .plain => if "__rf".toList <+: ns.toList then none else some (none, none)
  | .withMetadata metadata => some (metadata, expiresAtMs)

/-- Nodes, and the calls that have been made for one key. -/
structure PairState (ι : Type) where
  nodes : ι → Node
  calls : List (PutCall ι)

inductive PairEvent (ι : Type)
  /-- A call writes its value. -/
  | put (i : ι) (kind : PutKind) (value : Option Bytes) (expiresAtMs : Option ℕ) (wallMs : ℕ)
  /-- A call writes its metadata. -/
  | finish (k : ℕ) (wallMs : ℕ)
  /-- A node merges an entry. -/
  | merge (i : ι) (ns : String) (item : String × KvEntry) (wallMs : ℕ)

/-- The entry that `kv_put_entry` writes. -/
def Node.nextEntry (n : Node) (wallMs : ℕ) (value : Option Bytes) (expiresAtMs : Option ℕ) : KvEntry :=
  ⟨(n.inner.clock.now wallMs).last, n.id, value, expiresAtMs⟩

namespace PairState

variable {ι : Type} [DecidableEq ι] (x : Crypto) (ns key : String)

/-- The entries of the key that nodes can have sent: those of the calls. -/
def Sent (s : PairState ι) (ns' : String) (item : String × KvEntry) : Prop :=
  item.1 = key →
    (ns' = ns → ∃ c ∈ s.calls, c.value = item.2) ∧
    (ns' = kvMetadataNamespace x ns → ∃ c ∈ s.calls, c.metadata = some item.2)

instance (s : PairState ι) (ns' : String) (item : String × KvEntry) :
    Decidable (s.Sent x ns key ns' item) := inferInstanceAs (Decidable (_ → _ ∧ _))

/-- A node writes an entry under the key. -/
def write (s : PairState ι) (i : ι) (ns' : String) (value : Option Bytes) (expiresAtMs : Option ℕ)
    (wallMs : ℕ) : ι → Node :=
  update s.nodes i ((s.nodes i).kvPutEntry wallMs true ns' key value expiresAtMs).1

def step (s : PairState ι) : PairEvent ι → Option (PairState ι)
  | .put i kind value expiresAtMs wallMs =>
      some ⟨s.write key i ns value expiresAtMs wallMs, s.calls ++
        [⟨i, (s.nodes i).nextEntry wallMs value expiresAtMs, kind.toWrite ns expiresAtMs, none⟩]⟩
  | .finish k wallMs => match s.calls[k]? with
      | some ⟨i, value, some (metadata, expiresAtMs), _⟩ =>
          some ⟨s.write key i (kvMetadataNamespace x ns) metadata expiresAtMs wallMs,
            s.calls.set k
              ⟨i, value, none, some ((s.nodes i).nextEntry wallMs metadata expiresAtMs)⟩⟩
      | _ => none
  | .merge i ns' item wallMs =>
      if s.Sent x ns key ns' item then
        some ⟨update s.nodes i
          ((s.nodes i).kvMergeRemote x (fun _ => wallMs) (fun _ => true) ns' [item]).1, s.calls⟩
      else none

/-- The counters of the clocks do not wrap around, and a call writes its metadata with a timestamp
that is later than that of another call's if and only if its value is. -/
def InOrder (s : PairState ι) : PairEvent ι → Prop
  | .put i _ _ _ wallMs => (s.nodes i).inner.clock.NowFits wallMs
  | .finish k wallMs => ∀ c ∈ s.calls[k]?, (s.nodes c.node).inner.clock.NowFits wallMs ∧
      ∀ d ∈ s.calls, ∀ m ∈ d.metadata,
        (m.stamp < toLex (((s.nodes c.node).inner.clock.now wallMs).last,
          (s.nodes c.node).id.key.toNat) ↔ d.value.stamp < c.value.stamp)
  | .merge i _ item wallMs => (s.nodes i).inner.clock.ObserveFits item.2.hlc wallMs

instance (s : PairState ι) (ev : PairEvent ι) : Decidable (s.InOrder ev) :=
  match ev with
  | .put i _ _ _ wallMs => inferInstanceAs (Decidable ((s.nodes i).inner.clock.NowFits wallMs))
  | .finish k _ => inferInstanceAs
      (Decidable (∀ c ∈ s.calls[k]?, _ ∧ ∀ d ∈ s.calls, ∀ m ∈ d.metadata, _))
  | .merge i _ item wallMs =>
      inferInstanceAs (Decidable ((s.nodes i).inner.clock.ObserveFits item.2.hlc wallMs))

/-- Every call has returned, and no node would take an entry of a call. -/
def Settled (s : PairState ι) : Prop :=
  ∀ c ∈ s.calls, c.toWrite = none ∧ ∀ i,
    ((s.nodes i).inner.mergeKv x ns key c.value).2 = false ∧
      ∀ m ∈ c.metadata, ((s.nodes i).inner.mergeKv x (kvMetadataNamespace x ns) key m).2 = false

/-- What a node returns is the value and the metadata of one call. -/
def Paired (s : PairState ι) : Prop :=
  ∀ i wall v m, (s.nodes i).kvGetWithMetadata x ns key wall = some (v, m) →
    ∃ c ∈ s.calls, c.value.visible (wall 0) = some v ∧
      m = c.metadata.bind fun e => e.visible (wall 1)

/-- No node has an entry of the key, and the nodes are different. -/
structure Fresh (s : PairState ι) : Prop where
  calls : s.calls = []
  value : ∀ i, (s.nodes i).inner.kvEntry ns key = none
  metadata : ∀ i, (s.nodes i).inner.kvEntry (kvMetadataNamespace x ns) key = none
  ids : Function.Injective fun i => (s.nodes i).id

end PairState

/-! ### Nodes -/

namespace Node

/-- The node has written the entry. -/
structure Wrote (n : Node) (e : KvEntry) : Prop where
  writer : e.writer = n.id
  hlc_le : e.hlc ≤ n.inner.clock.last

/-- The node with the same identity, later. -/
structure Later (n m : Node) : Prop where
  id_eq : m.id = n.id
  last_le : n.inner.clock.last ≤ m.inner.clock.last

theorem Later.refl (n : Node) : n.Later n := ⟨rfl, le_rfl⟩

theorem Wrote.later {n m : Node} {e : KvEntry} (h : n.Wrote e) (hm : n.Later m) : m.Wrote e :=
  ⟨h.writer.trans hm.id_eq.symm, h.hlc_le.trans hm.last_le⟩

variable {n : Node} {wallMs : ℕ}

theorem later_kvPutEntry (hfits : n.inner.clock.NowFits wallMs) (ns key : String)
    (value : Option Bytes) (expiresAtMs : Option ℕ) :
    n.Later (n.kvPutEntry wallMs true ns key value expiresAtMs).1 :=
  ⟨rfl, (Clock.lt_now hfits).le⟩

theorem wrote_nextEntry (ns key : String) (value : Option Bytes) (expiresAtMs : Option ℕ) :
    (n.kvPutEntry wallMs true ns key value expiresAtMs).1.Wrote
      (n.nextEntry wallMs value expiresAtMs) := ⟨rfl, le_rfl⟩

theorem kvEntry_kvPutEntry (ns key ns' key' : String) (value : Option Bytes)
    (expiresAtMs : Option ℕ) :
    (n.kvPutEntry wallMs true ns key value expiresAtMs).1.inner.kvEntry ns' key' =
      if ns' = ns ∧ key' = key then some (n.nextEntry wallMs value expiresAtMs)
      else n.inner.kvEntry ns' key' := n.inner.kvEntry_putKv ns key _ ns' key'

theorem inner_kvMergeRemote_singleton (x : Crypto) (ns : String) (item : String × KvEntry) :
    (n.kvMergeRemote x (fun _ => wallMs) (fun _ => true) ns [item]).1.inner =
      (n.kvMergeItem x wallMs ns item).1.inner := by
  unfold kvMergeRemote kvMergeFrom
  generalize n.kvMergeItem x wallMs ns item = result
  obtain ⟨m, b⟩ := result
  cases b <;> rfl

theorem later_kvMergeRemote (x : Crypto) (ns : String) {item : String × KvEntry}
    (hfits : n.inner.clock.ObserveFits item.2.hlc wallMs) :
    n.Later (n.kvMergeRemote x (fun _ => wallMs) (fun _ => true) ns [item]).1 := by
  refine ⟨?_, ?_⟩
  · unfold kvMergeRemote kvMergeFrom kvMergeItem
    dsimp only
    cases (n.inner.mergeKv x ns item.1 item.2).2 <;> rfl
  · rw [inner_kvMergeRemote_singleton]
    exact (le_max_left _ _).trans (Clock.max_le_observe hfits)

theorem kvEntry_kvMergeRemote (x : Crypto) (ns ns' key : String) (item : String × KvEntry) :
    (n.kvMergeRemote x (fun _ => wallMs) (fun _ => true) ns [item]).1.inner.kvEntry ns' key =
        n.inner.kvEntry ns' key ∨ ns' = ns ∧ key = item.1 ∧
        (n.kvMergeRemote x (fun _ => wallMs) (fun _ => true) ns [item]).1.inner.kvEntry ns' key =
          some item.2 := by
  rw [inner_kvMergeRemote_singleton]
  rw [show (n.kvMergeItem x wallMs ns item).1.inner.kvEntry ns' key = _ from
    Inner.kvEntry_mergeKv .., Inner.kvEntry_putKv]
  split_ifs with happlied hhere
  · exact .inr ⟨hhere.1, hhere.2, rfl⟩
  · exact .inl rfl
  · exact .inl rfl

end Node

theorem Inner.exists_of_mergeKv_eq_false {x : Crypto} {inner : Inner} {ns key : String}
    {e : KvEntry} (h : (inner.mergeKv x ns key e).2 = false) :
    ∃ f, inner.kvEntry ns key = some f ∧ e.rank (valueHash x) ≤ f.rank (valueHash x) := by
  unfold Inner.mergeKv Namespace.merge at h
  unfold Inner.kvEntry
  cases hentry : (inner.namespaceOf ns).entry key with
  | none => rw [hentry] at h; cases h
  | some f =>
    rw [hentry] at h
    dsimp only at h
    split_ifs at h with hbeats
    exact ⟨f, rfl, not_lt.1 (by simpa [KvEntry.beats] using hbeats)⟩

/-! ### Runs -/

namespace PairState

variable {ι : Type} {x : Crypto} {ns key : String} {s t : PairState ι}

/-- What holds after every step. -/
structure Inv (x : Crypto) (ns key : String) (s : PairState ι) : Prop where
  ids : Function.Injective fun i => (s.nodes i).id
  wrote : ∀ c ∈ s.calls, (s.nodes c.node).Wrote c.value ∧
    ∀ m ∈ c.metadata, (s.nodes c.node).Wrote m
  value : ∀ i e, (s.nodes i).inner.kvEntry ns key = some e → ∃ c ∈ s.calls, c.value = e
  metadata : ∀ i e, (s.nodes i).inner.kvEntry (kvMetadataNamespace x ns) key = some e →
    ∃ c ∈ s.calls, c.metadata = some e
  returned : ∀ c ∈ s.calls, c.toWrite = none ↔ c.metadata.isSome
  distinct : (s.calls.map (·.value.stamp)).Nodup
  order : ∀ c ∈ s.calls, ∀ d ∈ s.calls, ∀ m ∈ c.metadata, ∀ m' ∈ d.metadata,
    c.value.stamp < d.value.stamp → m.stamp < m'.stamp

theorem Fresh.inv (h : s.Fresh x ns key) : s.Inv x ns key where
  ids := h.ids
  wrote := by simp [h.calls]
  value := fun i e he => by rw [h.value i] at he; cases he
  metadata := fun i e he => by rw [h.metadata i] at he; cases he
  returned := by simp [h.calls]
  distinct := by simp [h.calls]
  order := by simp [h.calls]

theorem Inv.stamp_ne (hs : s.Inv x ns key) {j : ι}
    (hfits : (s.nodes i).inner.clock.NowFits wallMs) {e : KvEntry} (he : (s.nodes j).Wrote e)
    (value : Option Bytes) (expiresAtMs : Option ℕ) :
    e.stamp ≠ ((s.nodes i).nextEntry wallMs value expiresAtMs).stamp := by
  intro heq
  obtain ⟨hhlc, hwriter⟩ := Prod.mk.inj (toLex.injective heq)
  by_cases hij : j = i
  · subst hij
    have hlt := he.hlc_le.trans_lt (Clock.lt_now hfits)
    rw [hhlc] at hlt
    exact absurd hlt (lt_irrefl _)
  · refine hij (hs.ids ?_)
    rw [he.writer] at hwriter
    show (s.nodes j).id = (s.nodes i).id
    generalize (s.nodes j).id = v, hi : (s.nodes i).id = w at hwriter
    obtain ⟨v⟩ := v
    obtain ⟨w⟩ := w
    rw [nextEntry, hi] at hwriter
    exact congrArg PublicId.mk (BitVec.eq_of_toNat_eq hwriter)

theorem metadataNamespace_ne (hns : ¬ "__rf".toList <+: ns.toList) :
    ns ≠ kvMetadataNamespace x ns := by
  have hstart : "__rf".toList <+: "__rf_kvmeta/".toList := by decide
  intro h
  have hmeta : "__rf".toList <+: (kvMetadataNamespace x ns).toList := by
    unfold kvMetadataNamespace
    simp only [String.toList_ofList]
    exact hstart.trans (prefix_append _ _)
  rw [← h] at hmeta
  exact hns hmeta

theorem ids_of_later (hs : Function.Injective fun i => (s.nodes i).id)
    (h : ∀ j, (s.nodes j).Later (t.nodes j)) : Function.Injective fun i => (t.nodes i).id := by
  intro i j hij
  refine hs ?_
  show (s.nodes i).id = (s.nodes j).id
  rw [← (h i).id_eq, ← (h j).id_eq]
  exact hij

theorem mem_concat {c d : PutCall ι} (h : c ∈ s.calls ++ [d]) : c ∈ s.calls ∨ c = d := by
  simpa using h

variable [DecidableEq ι]

theorem later_update {n : Node} (h : (s.nodes i).Later n) (j : ι) :
    (s.nodes j).Later (update s.nodes i n j) := by
  by_cases hj : j = i
  · subst hj
    rwa [update_self]
  · rw [update_of_ne hj]
    exact .refl _

/-- The entries under the key after a write to a namespace. -/
theorem kvEntry_write {value : Option Bytes} (j : ι) (ns'' : String) :
    (s.write key i ns' value expiresAtMs wallMs j).inner.kvEntry ns'' key =
      if j = i ∧ ns'' = ns' then some ((s.nodes i).nextEntry wallMs value expiresAtMs)
      else (s.nodes j).inner.kvEntry ns'' key := by
  unfold write
  by_cases hj : j = i
  · subst hj
    rw [update_self, kvEntry_kvPutEntry]
    simp
  · rw [update_of_ne hj, if_neg fun h => hj h.1]

theorem Inv.merge (hs : s.Inv x ns key) {item : String × KvEntry} (hsent : s.Sent x ns key ns' item)
    (hfits : (s.nodes i).inner.clock.ObserveFits item.2.hlc wallMs) : Inv x ns key ⟨update s.nodes i
      ((s.nodes i).kvMergeRemote x (fun _ => wallMs) (fun _ => true) ns' [item]).1, s.calls⟩ := by
  have hlater := later_update (later_kvMergeRemote x ns' hfits)
  have hentry : ∀ j ns'' e, (update s.nodes i ((s.nodes i).kvMergeRemote x (fun _ => wallMs)
      (fun _ => true) ns' [item]).1 j).inner.kvEntry ns'' key = some e →
      (s.nodes j).inner.kvEntry ns'' key = some e ∨ ns'' = ns' ∧ key = item.1 ∧ e = item.2 := by
    intro j ns'' e he
    by_cases hj : j = i
    · subst hj
      rw [update_self] at he
      rcases kvEntry_kvMergeRemote x ns' ns'' key item with hsame | ⟨hns, hkey, htaken⟩
      · exact .inl (hsame ▸ he)
      · exact .inr ⟨hns, hkey, some.inj (he.symm.trans htaken)⟩
    · rw [update_of_ne hj] at he
      exact .inl he
  constructor
  case ids => exact ids_of_later hs.ids hlater
  case wrote => exact fun c hc => ⟨(hs.wrote c hc).1.later (hlater c.node),
    fun m hm => ((hs.wrote c hc).2 m hm).later (hlater c.node)⟩
  case value =>
    intro j e he
    rcases hentry j ns e he with he | ⟨rfl, hkey, rfl⟩
    · exact hs.value j e he
    · exact (hsent hkey.symm).1 rfl
  case metadata =>
    intro j e he
    rcases hentry j _ e he with he | ⟨hns, hkey, rfl⟩
    · exact hs.metadata j e he
    · exact (hsent hkey.symm).2 hns.symm
  case returned => exact hs.returned
  case distinct => exact hs.distinct
  case order => exact hs.order

section

variable (hns : ¬ "__rf".toList <+: ns.toList) (hs : s.Inv x ns key)

include hns hs

theorem Inv.put
    (hfits : (s.nodes i).inner.clock.NowFits wallMs) (kind : PutKind) (value : Option Bytes)
    (expiresAtMs : Option ℕ) : Inv x ns key ⟨s.write key i ns value expiresAtMs wallMs, s.calls ++
      [⟨i, (s.nodes i).nextEntry wallMs value expiresAtMs, kind.toWrite ns expiresAtMs, none⟩]⟩ := by
  have hlater := later_update (later_kvPutEntry hfits ns key value expiresAtMs)
  constructor
  case ids => exact ids_of_later hs.ids hlater
  case wrote =>
    intro c hc
    rcases mem_concat hc with hc | rfl
    · exact ⟨(hs.wrote c hc).1.later (hlater c.node),
        fun m hm => ((hs.wrote c hc).2 m hm).later (hlater c.node)⟩
    · refine ⟨?_, fun m hm => by cases hm⟩
      show (s.write key i ns value expiresAtMs wallMs i).Wrote _
      rw [write, update_self]
      exact wrote_nextEntry ns key value expiresAtMs
  case value =>
    intro j e he
    rw [kvEntry_write] at he
    split_ifs at he
    · exact ⟨_, mem_append_right _ (mem_singleton.2 rfl), some.inj he⟩
    · obtain ⟨c, hc, hce⟩ := hs.value j e he
      exact ⟨c, mem_append_left _ hc, hce⟩
  case metadata =>
    intro j e he
    rw [kvEntry_write, if_neg fun h => metadataNamespace_ne hns h.2.symm] at he
    obtain ⟨c, hc, hce⟩ := hs.metadata j e he
    exact ⟨c, mem_append_left _ hc, hce⟩
  case returned =>
    intro c hc
    rcases mem_concat hc with hc | rfl
    · exact hs.returned c hc
    · -- Outside the platform's own namespaces a call always has metadata to write.
      cases kind with
      | plain => simp only [PutKind.toWrite, if_neg hns, reduceCtorEq, isSome_none]
      | withMetadata m => simp [PutKind.toWrite]
  case distinct =>
    rw [map_append, nodup_append]
    refine ⟨hs.distinct, nodup_singleton _, fun e he f hf => ?_⟩
    obtain ⟨c, hc, rfl⟩ := mem_map.1 he
    obtain rfl := mem_singleton.1 hf
    exact hs.stamp_ne hfits (hs.wrote c hc).1 value expiresAtMs
  case order =>
    intro c hc d hd m hm m' hm'
    rcases mem_concat hc with hc | rfl
    · rcases mem_concat hd with hd | rfl
      · exact hs.order c hc d hd m hm m' hm'
      · cases hm'
    · cases hm

theorem Inv.finish {value : KvEntry} {metadata : Option Bytes} {old : Option KvEntry}
    (hk : s.calls[k]? = some ⟨i, value, some (metadata, expiresAtMs), old⟩)
    (hok : s.InOrder (.finish k wallMs)) :
    Inv x ns key ⟨s.write key i (kvMetadataNamespace x ns) metadata expiresAtMs wallMs,
      s.calls.set k ⟨i, value, none, some ((s.nodes i).nextEntry wallMs metadata expiresAtMs)⟩⟩ := by
  obtain ⟨hfits, hstamps⟩ := hok _ hk
  have hlater := later_update
    (later_kvPutEntry hfits (kvMetadataNamespace x ns) key metadata expiresAtMs)
  have hmem := mem_of_getElem? hk
  -- Another call's metadata against the new one.
  have hother : ∀ d ∈ s.calls, ∀ m ∈ d.metadata,
      (m.stamp < ((s.nodes i).nextEntry wallMs metadata expiresAtMs).stamp ↔
        d.value.stamp < value.stamp) ∧
      m.stamp ≠ ((s.nodes i).nextEntry wallMs metadata expiresAtMs).stamp :=
    fun d hd m hm => ⟨hstamps d hd m hm, hs.stamp_ne hfits ((hs.wrote d hd).2 m hm) _ _⟩
  -- The call as it returns, and what the list keeps of the calls before.
  set done : PutCall ι := ⟨i, value, none,
    some ((s.nodes i).nextEntry wallMs metadata expiresAtMs)⟩ with hdone
  have hold : ∀ {c}, c ∈ s.calls.set k done → c = done ∨ c ∈ s.calls := fun {c} hc =>
    (mem_or_eq_of_mem_set hc).symm
  have hlt := (List.getElem?_eq_some_iff.1 hk).1
  have hnew : done ∈ s.calls.set k done := mem_set hlt done
  have hkept : ∀ c ∈ s.calls, ∃ d ∈ s.calls.set k done,
      d.value = c.value ∧ ∀ e, c.metadata = some e → d.metadata = some e := by
    intro c hc
    obtain ⟨l, hl⟩ := getElem?_of_mem hc
    by_cases hlk : l = k
    · subst hlk
      obtain rfl := some.inj (hl.symm.trans hk)
      refine ⟨done, hnew, rfl, fun e he => ?_⟩
      have := (hs.returned _ hc).2 (by rw [he]; rfl)
      cases this
    · refine ⟨c, mem_of_getElem? (i := l) ?_, rfl, fun e he => he⟩
      rw [getElem?_set_ne (Ne.symm hlk), hl]
  constructor
  case ids => exact ids_of_later hs.ids hlater
  case wrote =>
    intro c hc
    rcases hold hc with rfl | hc
    · refine ⟨(hs.wrote _ hmem).1.later (hlater i), fun m hm => ?_⟩
      obtain rfl := some.inj hm
      show (s.write key i _ metadata expiresAtMs wallMs i).Wrote _
      rw [write, update_self]
      exact wrote_nextEntry _ key metadata expiresAtMs
    · exact ⟨(hs.wrote c hc).1.later (hlater c.node),
        fun m hm => ((hs.wrote c hc).2 m hm).later (hlater c.node)⟩
  case value =>
    intro j e he
    rw [kvEntry_write, if_neg fun h => metadataNamespace_ne hns h.2] at he
    obtain ⟨c, hc, rfl⟩ := hs.value j e he
    obtain ⟨d, hd, hvalue, -⟩ := hkept c hc
    exact ⟨d, hd, hvalue⟩
  case metadata =>
    intro j e he
    rw [kvEntry_write] at he
    split_ifs at he
    · exact ⟨done, hnew, he⟩
    · obtain ⟨c, hc, hce⟩ := hs.metadata j e he
      obtain ⟨d, hd, -, hmetadata⟩ := hkept c hc
      exact ⟨d, hd, hmetadata e hce⟩
  case returned =>
    intro c hc
    rcases hold hc with rfl | hc
    · simp [hdone]
    · exact hs.returned c hc
  case distinct =>
    -- The call keeps its value.
    have hsame : (s.calls.set k done).map (·.value.stamp) = s.calls.map (·.value.stamp) := by
      refine ext_getElem? fun l => ?_
      rw [getElem?_map, getElem?_map, getElem?_set, if_pos hlt]
      split_ifs with hkl
      · rw [← hkl, hk]
        rfl
      · rfl
    rw [hsame]
    exact hs.distinct
  case order =>
    intro c hc d hd m hm m' hm' hless
    rcases hold hc with rfl | hc
    · obtain rfl := some.inj hm
      rcases hold hd with rfl | hd
      · exact absurd hless (lt_irrefl _)
      · obtain ⟨hiff, hne⟩ := hother d hd m' hm'
        exact lt_of_le_of_ne (not_lt.1 fun h => absurd (hiff.1 h) hless.not_gt) hne.symm
    · rcases hold hd with rfl | hd
      · obtain rfl := some.inj hm'
        exact (hother c hc m hm).1.2 hless
      · exact hs.order c hc d hd m hm m' hm' hless

theorem Inv.step {ev : PairEvent ι}
    (hok : s.InOrder ev) (hstep : s.step x ns key ev = some t) : t.Inv x ns key := by
  cases ev with
  | put i kind value expiresAtMs wallMs =>
    obtain rfl := some.inj hstep
    exact hs.put hns hok kind value expiresAtMs
  | finish k wallMs =>
    dsimp only [PairState.step] at hstep
    split at hstep
    · rename_i i value metadata expiresAtMs old hk
      obtain rfl := some.inj hstep
      exact hs.finish hns hk hok
    · cases hstep
  | merge i ns' item wallMs =>
    dsimp only [PairState.step] at hstep
    split_ifs at hstep with hsent
    obtain rfl := some.inj hstep
    exact hs.merge hsent hok

end

omit [DecidableEq ι] in
/-- The call with the latest value is the one with the latest metadata. -/
theorem Inv.paired (hs : s.Inv x ns key) (hsettled : s.Settled x ns key) : s.Paired x ns key := by
  intro i wall v m hget
  obtain ⟨w, hw, hpair⟩ := map_eq_some_iff.1 hget
  obtain ⟨rfl, rfl⟩ := Prod.mk.inj hpair
  rw [kvGet_eq] at hw
  obtain ⟨e, he, hvisible⟩ := bind_eq_some_iff.1 hw
  obtain ⟨c, hc, rfl⟩ := hs.value i e he
  refine ⟨c, hc, hvisible, ?_⟩
  -- The node holds the metadata of some call, which ranks as high as that of this one.
  obtain ⟨m, hm⟩ := isSome_iff_exists.1 ((hs.returned c hc).1 (hsettled c hc).1)
  obtain ⟨f, hf, hle⟩ := Inner.exists_of_mergeKv_eq_false (((hsettled c hc).2 i).2 m hm)
  obtain ⟨d, hd, hdf⟩ := hs.metadata i f hf
  have hsame : d = c := by
    refine inj_on_of_nodup_map hs.distinct hd hc ?_
    by_contra hne
    obtain ⟨g, hg, hdc⟩ := Inner.exists_of_mergeKv_eq_false ((hsettled d hd).2 i).1
    obtain rfl := some.inj (he.symm.trans hg)
    have hstamp : d.value.stamp < c.value.stamp :=
      lt_of_le_of_ne (not_lt.1 fun h => absurd (KvEntry.rank_lt_of_stamp_lt h) hdc.not_gt) hne
    exact absurd (KvEntry.rank_lt_of_stamp_lt (hs.order d hd c hc f hdf m hm hstamp)) hle.not_gt
  rw [kvGet_eq, hf, ← hdf, hsame]

/-- **If metadata is written in the order of the values, then after all calls have returned and the
nodes have exchanged all entries, every node returns the value and the metadata of one call.** -/
theorem paired_of_settled (hns : ¬ "__rf".toList <+: ns.toList) {evs : List (PairEvent ι)}
    (hfresh : s.Fresh x ns key) (hok : Runs.Meets (step x ns key) InOrder s evs)
    (hrun : run (step x ns key) s evs = some t) (hsettled : t.Settled x ns key) :
    t.Paired x ns key :=
  (run_invariant (P := Inv x ns key) (fun _ _ _ hs hev hstep => hs.step hns hev hstep)
    hfresh.inv hok hrun).paired hsettled

/-! ### Samples -/

/-- Two nodes without entries. -/
def twoNodes : PairState Bool :=
  ⟨fun i => new ⟨if i then 2 else 1⟩ sampleOperator, []⟩

theorem fresh_twoNodes : twoNodes.Fresh sampleCrypto "n" "k" where
  calls := rfl
  value := fun _ => rfl
  metadata := fun _ => rfl
  ids := by decide

/-- The entry that a call writes at a time. -/
def sampleEntry (i : Bool) (wallMs logical : ℕ) (value : Bytes) : KvEntry :=
  ⟨⟨wallMs, logical⟩, ⟨if i then 2 else 1⟩, some value, none⟩

/-- One call after the other, on different nodes, and what they exchange. -/
def inTurn : List (PairEvent Bool) :=
  [.put false (.withMetadata (some [101])) (some [1]) none 10, .finish 0 10,
    .put true (.withMetadata (some [102])) (some [2]) none 11, .finish 1 11,
    .merge false "n" ("k", sampleEntry true 11 0 [2]) 20,
    .merge false (kvMetadataNamespace sampleCrypto "n") ("k", sampleEntry true 11 1 [102]) 20]

theorem paired_inTurn : ∃ t, run (step sampleCrypto "n" "k") twoNodes inTurn = some t ∧
      t.Settled sampleCrypto "n" "k" ∧ t.Paired sampleCrypto "n" "k" := by
  obtain ⟨t, ht, hsettled⟩ : ∃ t ∈ run (step sampleCrypto "n" "k") twoNodes inTurn,
      t.Settled sampleCrypto "n" "k" := by
    unfold Settled
    decide +kernel
  exact ⟨t, ht, hsettled, paired_of_settled (by decide) fresh_twoNodes (by decide +kernel) ht
    hsettled⟩

/-- The first call writes its metadata after the second has written everything. -/
def crossed : List (PairEvent Bool) :=
  [.put false (.withMetadata (some [101])) (some [1]) none 10,
    .put true (.withMetadata (some [102])) (some [2]) none 11, .finish 1 11, .finish 0 12,
    .merge false "n" ("k", sampleEntry true 11 0 [2]) 20,
    .merge true (kvMetadataNamespace sampleCrypto "n") ("k", sampleEntry false 12 0 [101]) 20]

theorem not_paired_crossed : ∃ t, run (step sampleCrypto "n" "k") twoNodes crossed = some t ∧
      t.Settled sampleCrypto "n" "k" ∧ ¬ t.Paired sampleCrypto "n" "k" := by
  obtain ⟨t, ht, hsettled, hget, hother⟩ :
      ∃ t ∈ run (step sampleCrypto "n" "k") twoNodes crossed, t.Settled sampleCrypto "n" "k" ∧
        (t.nodes false).kvGetWithMetadata sampleCrypto "n" "k" (fun _ => 30) =
          some ([2], some [101]) ∧
        ∀ c ∈ t.calls, c.value.visible 30 = some [2] →
          some [101] ≠ c.metadata.bind fun e => e.visible 30 := by
    unfold Settled
    decide +kernel
  refine ⟨t, ht, hsettled, fun hpaired => ?_⟩
  obtain ⟨c, hc, hvalue, hmetadata⟩ := hpaired false (fun _ => 30) _ _ hget
  exact hother c hc hvalue hmetadata

end PairState

end RandallFlare
