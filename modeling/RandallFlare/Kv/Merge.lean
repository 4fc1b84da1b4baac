import RandallFlare.Kv.Namespace
import RandallFlare.Lib.Latest
import RandallFlare.Signed.Envelope

/-!
# Merging key-value entries

Anti-entropy of `rf-core/src/kv.rs`: a replica dumps its entries and another one merges them one by
one.  For one key a namespace is a register that keeps the entry of the highest rank, and it settles
on the same entry everywhere if no two different entries share the highest one.  They can: the hash
that breaks ties is taken over the value followed by the expiry, without a mark between them.

* `Namespace.applyDump`, `KvEntry.hashInput` (the bytes of `value_hash`), `valueHash`;
* `Converges`: replicas with the same entries end up equal;
* `converges_iff` is the result.
-/

namespace RandallFlare

open Namespace List Latest

/-! ### The tie-breaking hash -/

/-- The bytes `value_hash` hashes. -/
def hashInput (value : Option Bytes) (expiresAtMs : Option ℕ) : Bytes :=
  (match value with
    | some v => 1 :: v
    | none => [0]) ++
  (match expiresAtMs with
    | some e => (beBytes 8 e).reverse
    | none => [])

def valueHash (x : Crypto) : ValueHash := fun value expiresAtMs =>
  (x.sha256 (hashInput value expiresAtMs)).toNat

/-- The same timestamp, the same writer and the same bytes hashed. -/
def KvEntry.Clashes (e f : KvEntry) : Prop :=
  e.hlc = f.hlc ∧ e.writer = f.writer ∧
    hashInput e.value e.expiresAtMs = hashInput f.value f.expiresAtMs

namespace KvEntry

theorem rank_eq_iff {h : ValueHash} {e f : KvEntry} :
    e.rank h = f.rank h ↔ e.hlc = f.hlc ∧ e.writer = f.writer ∧
      h e.value e.expiresAtMs = h f.value f.expiresAtMs := by
  have hwriter : e.writer.key.toNat = f.writer.key.toNat ↔ e.writer = f.writer := by
    generalize e.writer = v
    generalize f.writer = w
    obtain ⟨a⟩ := v
    obtain ⟨b⟩ := w
    simp [BitVec.toNat_inj]
  rw [← hwriter]
  constructor
  · intro hrank
    have h₁ := Prod.mk.inj (toLex.injective hrank)
    have h₂ := Prod.mk.inj (toLex.injective h₁.2)
    exact ⟨h₁.1, h₂.1, h₂.2⟩
  · rintro ⟨h₁, h₂, h₃⟩
    unfold rank
    rw [h₁, h₂, h₃]

end KvEntry

/-! ### Dumps -/

namespace Namespace

/-- All entries, in the order of the keys. -/
def dump (n : Namespace) : List (String × KvEntry) := n.entries.entries

/-- Merge the entries of a dump, one after the other. -/
def applyDump (h : ValueHash) (n : Namespace) (items : List (String × KvEntry)) : Namespace :=
  items.foldl (fun n p => (n.merge h p.1 p.2).1) n

theorem ext_entry {n m : Namespace} (h : ∀ key, n.entry key = m.entry key) : n = m := by
  obtain ⟨a⟩ := n
  obtain ⟨b⟩ := m
  exact congrArg mk (SortedMap.ext_get h)

theorem mem_dump {n : Namespace} {key : String} {e : KvEntry} :
    (key, e) ∈ n.dump ↔ n.entry key = some e :=
  n.entries.get_eq_some_iff.symm

theorem entry_merge_eq (h : ValueHash) (n : Namespace) (key key' : String) (e : KvEntry) :
    (n.merge h key e).1.entry key' =
      if key' = key then keep (KvEntry.rank h) (n.entry key) e else n.entry key' := by
  unfold merge
  cases hn : n.entry key with
  | none => exact n.entries.get_insert key key' e
  | some f =>
    dsimp only
    by_cases hb : e.beats h f
    · rw [if_pos hb]
      have hlt : f.rank h < e.rank h := by simpa [KvEntry.beats] using hb
      simp only [keep, if_pos hlt]
      exact n.entries.get_insert key key' e
    · have hlt : ¬ f.rank h < e.rank h := by simpa [KvEntry.beats] using hb
      simp only [keep, if_neg hlt]
      split_ifs with hk
      · rw [hk, hn]
      · rfl

/-- A dump of entries offers to the register of a key those of its entries. -/
theorem entry_applyDump (h : ValueHash) (n : Namespace) (items : List (String × KvEntry))
    (key : String) : (n.applyDump h items).entry key =
      ((items.filter (·.1 = key)).map Prod.snd).foldl (keep (KvEntry.rank h)) (n.entry key) := by
  induction items generalizing n with
  | nil => rfl
  | cons p items ih =>
    rw [applyDump, foldl_cons, ← applyDump, ih, entry_merge_eq]
    by_cases hk : p.1 = key
    · rw [if_pos hk.symm, filter_cons_of_pos (by simpa using hk), map_cons, foldl_cons, hk]
    · rw [if_neg (Ne.symm hk), filter_cons_of_neg (by simpa using hk)]

end Namespace

/-! ### How a replica came by its entries -/

/-- What was merged into a replica, one entry at a time or as the dump of another replica. -/
inductive History
  | start
  | merge (h : History) (key : String) (e : KvEntry)
  | exchange (h g : History)

namespace History

/-- The replica after its history. -/
def replica (x : Crypto) : History → Namespace
  | start => new
  | merge h key e => ((h.replica x).merge (valueHash x) key e).1
  | exchange h g => (h.replica x).applyDump (valueHash x) (g.replica x).dump

/-- Everything that was merged, here or on the way. -/
def items : History → List (String × KvEntry)
  | start => []
  | merge h key e => (key, e) :: h.items
  | exchange h g => h.items ++ g.items

/-- The history is over exactly these items. -/
def Over (h : History) (S : List (String × KvEntry)) : Prop := ∀ p, p ∈ h.items ↔ p ∈ S

/-- What a replica holds for a key is a top of the entries of the key in its history. -/
theorem isTop (x : Crypto) (h : History) (key : String) :
    Latest.IsTop (KvEntry.rank (valueHash x)) {e | (key, e) ∈ h.items}
      ((h.replica x).entry key) := by
  induction h with
  | start => exact Set.eq_empty_of_forall_notMem fun e he => absurd he not_mem_nil
  | merge h key' e ih =>
    rw [replica, entry_merge_eq]
    by_cases hk : key = key'
    · subst hk
      rw [if_pos rfl]
      have hset : {f | (key, f) ∈ (h.merge key e).items} = insert e {f | (key, f) ∈ h.items} := by
        ext f
        simp [items]
      rw [hset]
      exact ih.keep e
    · rw [if_neg hk]
      have hset : {f | (key, f) ∈ (h.merge key' e).items} = {f | (key, f) ∈ h.items} := by
        ext f
        simp [items, hk]
      rw [hset]
      exact ih
  | exchange h g ih ihg =>
    rw [replica, entry_applyDump, dump, SortedMap.filter_entries]
    have hset : {e | (key, e) ∈ (h.exchange g).items} =
        {e | (key, e) ∈ h.items} ∪ {e | (key, e) ∈ g.items} := by
      ext e
      simp [items]
    rw [hset]
    have hjoin := ih.join ihg
    -- A dump has at most one entry of the key.
    cases hg : (g.replica x).entry key with
    | none =>
      rw [hg] at hjoin
      rw [show (g.replica x).entries.get key = none from hg]
      exact hjoin
    | some f =>
      rw [hg] at hjoin
      rw [show (g.replica x).entries.get key = some f from hg]
      exact hjoin

/-- The entries of a list, merged one after the other. -/
def ofItems (l : List (String × KvEntry)) : History := l.foldl (fun h p => merge h p.1 p.2) start

theorem replica_ofItems (x : Crypto) (l : List (String × KvEntry)) :
    (ofItems l).replica x = new.applyDump (valueHash x) l := by
  have hfold : ∀ h : History, (l.foldl (fun h p => merge h p.1 p.2) h).replica x =
      (h.replica x).applyDump (valueHash x) l := by
    induction l with
    | nil => exact fun h => rfl
    | cons p l ih => exact fun h => ih (merge h p.1 p.2)
  exact hfold start

theorem mem_items_ofItems {p : String × KvEntry} (l : List (String × KvEntry)) :
    p ∈ (ofItems l).items ↔ p ∈ l := by
  have hfold : ∀ h : History, p ∈ (l.foldl (fun h p => merge h p.1 p.2) h).items ↔
      p ∈ h.items ∨ p ∈ l := by
    induction l with
    | nil => simp
    | cons q l ih =>
      intro h
      rw [foldl_cons, ih, items, mem_cons, mem_cons]
      tauto
  rw [ofItems, hfold, items]
  simp

/-- An entry that is merged first stays, if none of its key beats it. -/
theorem entry_ofItems_cons {x : Crypto} {key : String} {e : KvEntry} {l : List (String × KvEntry)}
    (h : ∀ f, (key, f) ∈ l → f.rank (valueHash x) ≤ e.rank (valueHash x)) :
    ((ofItems ((key, e) :: l)).replica x).entry key = some e := by
  rw [replica_ofItems, entry_applyDump, filter_cons_of_pos (by simp), map_cons,
    foldl_cons, entry_new]
  refine foldl_keep_of_le fun f hf => h f ?_
  obtain ⟨⟨key', f'⟩, hp, rfl⟩ := mem_map.1 hf
  obtain ⟨hmem, hkey⟩ := mem_filter.1 hp
  obtain rfl : key' = key := by simpa using hkey
  exact hmem

end History

/-! ### Convergence -/

/-- Replicas that have been given exactly the items `S`, in any order, any number of times and over
any exchanges, are equal; and so are two replicas that together have been given `S`, once each has
applied the dump of the other. -/
def Converges (x : Crypto) (S : List (String × KvEntry)) : Prop :=
  (∀ h g : History, h.Over S → g.Over S → h.replica x = g.replica x) ∧
    ∀ h g : History, (h.exchange g).Over S → (h.exchange g).replica x = (g.exchange h).replica x

/-- Different entries that clash are both superseded. -/
def ClashFree (x : Crypto) (S : List (String × KvEntry)) : Prop :=
  ∀ key e f, (key, e) ∈ S → (key, f) ∈ S → e ≠ f → e.Clashes f →
    ∃ g, (key, g) ∈ S ∧ g.beats (valueHash x) e

variable {x : Crypto} {S : List (String × KvEntry)}

theorem KvEntry.Clashes.rank_eq {e f : KvEntry} (h : e.Clashes f) :
    e.rank (valueHash x) = f.rank (valueHash x) := by
  refine KvEntry.rank_eq_iff.2 ⟨h.1, h.2.1, ?_⟩
  simp only [valueHash, h.2.2]

theorem KvEntry.clashes_of_rank_eq {key : String} {e f : KvEntry}
    (hsha : x.CollisionFree (S.map fun p => hashInput p.2.value p.2.expiresAtMs))
    (he : (key, e) ∈ S) (hf : (key, f) ∈ S)
    (h : e.rank (valueHash x) = f.rank (valueHash x)) : e.Clashes f := by
  obtain ⟨hhlc, hwriter, hhash⟩ := KvEntry.rank_eq_iff.1 h
  refine ⟨hhlc, hwriter, ?_⟩
  exact hsha _ (mem_map.2 ⟨(key, e), he, rfl⟩) _ (mem_map.2 ⟨(key, f), hf, rfl⟩)
    (BitVec.toNat_inj.1 hhash)

/-- Two histories over clash-free items lead to the same replica. -/
theorem replica_eq_of_clashFree
    (hsha : x.CollisionFree (S.map fun p => hashInput p.2.value p.2.expiresAtMs))
    (hS : ClashFree x S) {h g : History} (hh : h.Over S) (hg : g.Over S) :
    h.replica x = g.replica x := by
  refine ext_entry fun key => ?_
  have htop := h.isTop x key
  have htop' := g.isTop x key
  have hset : {e | (key, e) ∈ h.items} = {e | (key, e) ∈ S} := Set.ext fun e => hh (key, e)
  have hset' : {e | (key, e) ∈ g.items} = {e | (key, e) ∈ S} := Set.ext fun e => hg (key, e)
  rw [hset] at htop
  rw [hset'] at htop'
  refine htop.eq (fun e he f hf hle hle' => ?_) htop'
  by_contra hne
  have hrank := le_antisymm (hle' e he) (hle f hf)
  obtain ⟨k, hk, hbeats⟩ := hS key e f he hf hne (KvEntry.clashes_of_rank_eq hsha he hf hrank)
  have hlt : e.rank (valueHash x) < k.rank (valueHash x) := by simpa [KvEntry.beats] using hbeats
  exact absurd (hle k hk) (not_le.2 hlt)

/-- Of two clashing entries that nothing supersedes, the one merged first stays. -/
theorem clashFree_of_replica_eq
    (hS : ∀ h g : History, h.Over S → g.Over S → h.replica x = g.replica x) : ClashFree x S := by
  intro key e f he hf hne hclash
  by_contra hnone
  have hle : ∀ g, (key, g) ∈ S → g.rank (valueHash x) ≤ e.rank (valueHash x) := by
    intro g hg
    by_contra hlt
    refine hnone ⟨g, hg, ?_⟩
    simpa [KvEntry.beats] using hlt
  have hover : ∀ k, (key, k) ∈ S → (History.ofItems ((key, k) :: S)).Over S := by
    intro k hk p
    rw [History.mem_items_ofItems, mem_cons]
    exact ⟨fun hp => hp.elim (fun hp => hp ▸ hk) id, .inr⟩
  have hentry := congrArg (fun n => entry n key) (hS _ _ (hover e he) (hover f hf))
  simp only [History.entry_ofItems_cons hle,
    History.entry_ofItems_cons fun g hg => hclash.rank_eq ▸ hle g hg] at hentry
  exact hne (Option.some.inj hentry)

/-- **Replicas converge exactly if clashing entries are superseded**: the hash being free of
collisions on the entries, the order of merges does not matter if and only if no two different
entries of a key that nothing supersedes have the same timestamp, writer and hashed bytes. -/
theorem converges_iff (x : Crypto) (S : List (String × KvEntry))
    (hsha : x.CollisionFree (S.map fun p => hashInput p.2.value p.2.expiresAtMs)) :
    Converges x S ↔ ClashFree x S := by
  refine ⟨fun h => clashFree_of_replica_eq h.1, fun h => ⟨fun a b ha hb => ?_, fun a b hab => ?_⟩⟩
  · exact replica_eq_of_clashFree hsha h ha hb
  · refine replica_eq_of_clashFree hsha h hab fun p => ?_
    rw [← hab p, History.items, History.items, mem_append, mem_append, or_comm]

/-- A value that expired at 0, and the same value with eight zero bytes at its end that never
expires: the same bytes are hashed. -/
def clashingItems : List (String × KvEntry) :=
  [("k", ⟨⟨5, 0⟩, ⟨1⟩, some [118], some 0⟩),
    ("k", ⟨⟨5, 0⟩, ⟨1⟩, some [118, 0, 0, 0, 0, 0, 0, 0, 0], none⟩)]

/-- A later write supersedes the clash. -/
theorem converges_superseded :
    Converges sampleCrypto (("k", ⟨⟨6, 0⟩, ⟨1⟩, none, none⟩) :: clashingItems) := by
  refine (converges_iff _ _ (by decide +kernel)).2 fun key e f he hf hne hclash => ?_
  obtain rfl : key = "k" := by
    simp only [clashingItems, mem_cons, Prod.mk.injEq, not_mem_nil, or_false] at he
    rcases he with he | he | he <;> exact he.1
  refine ⟨_, mem_cons_self, ?_⟩
  simp only [clashingItems, mem_cons, Prod.mk.injEq, true_and, not_mem_nil, or_false]
    at he hf
  rcases he with rfl | rfl | rfl
  · -- The later write clashes with neither of the others.
    rcases hf with rfl | rfl | rfl
    · exact absurd rfl hne
    · exact absurd hclash.1 (by decide)
    · exact absurd hclash.1 (by decide)
  · decide +kernel
  · decide +kernel

/-- Without it, each replica keeps the entry it saw first, whatever they exchange. -/
theorem clashingItems_diverge : ¬ Converges sampleCrypto clashingItems := by
  intro h
  have hover : (History.ofItems clashingItems).Over clashingItems := fun p =>
    History.mem_items_ofItems _
  have hover' : (History.ofItems clashingItems.reverse).Over clashingItems := fun p => by
    rw [History.mem_items_ofItems, mem_reverse]
  have hentry := congrArg (fun n => (entry n "k").map KvEntry.expiresAtMs)
    (h.1 _ _ hover hover')
  exact absurd hentry (by decide +kernel)

end RandallFlare
