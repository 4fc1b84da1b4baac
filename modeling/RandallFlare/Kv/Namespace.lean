import Mathlib.Data.String.Basic
import RandallFlare.Kv.Hlc
import RandallFlare.Lib.SortedMap
import RandallFlare.Quorum.Raft

/-!
# The replicated key-value store

A translation of the last-writer-wins registers of `rf-core/src/kv.rs` and of what a node does with
them in `rf/src/node.rs`.  The order of two entries of one key is decided by timestamp, writer and
hash, the hash only breaking ties; it is SHA-256 in the source and a function `valueHash` here, its
32 bytes read as one number.
-/

namespace RandallFlare

/-- One version of a key. -/
structure KvEntry where
  hlc : Hlc
  writer : PublicId
  /-- `none` is a tombstone. -/
  value : Option Bytes
  expiresAtMs : Option ℕ
  deriving DecidableEq

/-- The hash of a value and its expiry. -/
abbrev ValueHash := Option Bytes → Option ℕ → ℕ

namespace KvEntry

/-- What the versions of a key are ordered by. -/
def rank (valueHash : ValueHash) (e : KvEntry) : Hlc ×ₗ ℕ ×ₗ ℕ :=
  toLex (e.hlc, toLex (e.writer.key.toNat, valueHash e.value e.expiresAtMs))

/-- The entry supersedes `other`. -/
def beats (valueHash : ValueHash) (e other : KvEntry) : Bool :=
  other.rank valueHash < e.rank valueHash

/-- The value a reader sees at `nowMs`. -/
def visible (e : KvEntry) (nowMs : ℕ) : Option Bytes :=
  e.value.filter fun _ => match e.expiresAtMs with
    | some exp => nowMs < exp
    | none => true

end KvEntry

structure Namespace where
  entries : SortedMap String KvEntry

namespace Namespace

def new : Namespace := ⟨SortedMap.empty⟩

def entry (n : Namespace) (key : String) : Option KvEntry := n.entries.get key

/-- A local write. -/
def put (n : Namespace) (key : String) (e : KvEntry) : Namespace := ⟨n.entries.insert key e⟩

/-- Fold a remote entry in; true when it was applied. -/
def merge (valueHash : ValueHash) (n : Namespace) (key : String) (incoming : KvEntry) :
    Namespace × Bool :=
  match n.entry key with
  | some existing =>
      if incoming.beats valueHash existing then (n.put key incoming, true) else (n, false)
  | none => (n.put key incoming, true)

def get (n : Namespace) (key : String) (nowMs : ℕ) : Option Bytes :=
  (n.entry key).bind fun e => e.visible nowMs

@[simp] theorem entry_new (key : String) : new.entry key = none := rfl

@[simp] theorem entry_put_self (n : Namespace) (key : String) (e : KvEntry) :
    (n.put key e).entry key = some e :=
  SortedMap.get_insert_self _ _ _

theorem merge_cases (valueHash : ValueHash) (n : Namespace) (key : String) (incoming : KvEntry) :
    n.merge valueHash key incoming = (n.put key incoming, true) ∨
      n.merge valueHash key incoming = (n, false) := by
  unfold merge
  split
  · split_ifs
    · exact .inl rfl
    · exact .inr rfl
  · exact .inl rfl

theorem entry_merge (valueHash : ValueHash) (n : Namespace) (key : String) (incoming : KvEntry) :
    (n.merge valueHash key incoming).1.entry key = n.entry key ∨
      (n.merge valueHash key incoming).1.entry key = some incoming := by
  rcases n.merge_cases valueHash key incoming with h | h
  · rw [h]
    exact .inr (entry_put_self n key incoming)
  · rw [h]
    exact .inl rfl

end Namespace

/-- What a node keeps for one of its namespaces, and its clock. -/
structure KvNode where
  clock : Clock
  ns : Namespace

namespace KvNode

def new : KvNode := ⟨Clock.new, Namespace.new⟩

/-- `Node::kv_put` by the node `me` at wall time `wallMs`. -/
def kvPut (n : KvNode) (me : PublicId) (key : String) (value : Option Bytes)
    (expiresAtMs : Option ℕ) (wallMs : ℕ) : KvNode where
  clock := n.clock.now wallMs
  ns := n.ns.put key ⟨(n.clock.now wallMs).last, me, value, expiresAtMs⟩

/-- `Node::kv_get` at `nowMs`. -/
def kvGet (n : KvNode) (key : String) (nowMs : ℕ) : Option Bytes := n.ns.get key nowMs

/-- `Node::kv_merge_remote`, for one entry. -/
def kvMergeRemote (valueHash : ValueHash) (n : KvNode) (key : String) (e : KvEntry)
    (wallMs : ℕ) : KvNode where
  clock := n.clock.observe e.hlc wallMs
  ns := (n.ns.merge valueHash key e).1

end KvNode

end RandallFlare
