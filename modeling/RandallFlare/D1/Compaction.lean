import RandallFlare.D1.Durable
import RandallFlare.Quorum.Election

/-!
# Stopping during a compaction

`Driver::maybe_compact` issues two store transactions: the log keys up to the new snapshot point are
removed, then the meta record that holds the new snapshot point is written.  A process that stops
between the two comes back with the old snapshot point and a log that begins behind the new one,
and every entry is then taken for one of a lower number.

* `Raft.maybeCompact`: the compaction and its store effects;
* `crashConsistent_iff`: when that is in order.
-/

namespace RandallFlare

open List

/-- The length past which a log is compacted and the number of applied entries that are kept. -/
def compactLimits (name : List Char) (compactThreshold keepTail : ℕ) : ℕ × ℕ :=
  if "rfdo-".toList.isPrefixOf name then (8, 1) else (compactThreshold, keepTail)

/-- Compact the log once it is longer than `threshold`. -/
def Raft.maybeCompact (r : Raft) (threshold keep : ℕ) : Raft × List Effect :=
  if r.log.length ≤ threshold then (r, []) else r.perform (.compact keep)

/-- The store when `maybe_compact` is stopped behind its first `k` transactions. -/
def Replica.stoppedStore (d : Replica) (limits : ℕ × ℕ) (k : ℕ) : Store :=
  ({ d with raft := (d.raft.maybeCompact limits.1 limits.2).1 }.execute
    ((d.raft.maybeCompact limits.1 limits.2).2.take k)).1.store

/-- The instance `r'` restored in the place of `r` is numbered from its snapshot point on and has
at each position the entry `r` had. -/
structure Raft.Intact (r r' : Raft) : Prop where
  contiguous : Contiguous r'
  same : ∀ n e, r'.entry n = some e → r.entry n = some e

/-- Wherever the compaction stops and whatever the state machine's mark is, the restored instance
is in order. -/
def Replica.CrashConsistent (d : Replica) (limits : ℕ × ℕ) : Prop :=
  ∀ k applied, d.raft.Intact
    (Replica.restored d.raft.me d.raft.group (d.stoppedStore limits k) applied)

/-- A compaction that does anything drops the entries up to `applied - keep`. -/
theorem Raft.maybeCompact_cases (r : Raft) (threshold keep : ℕ) :
    r.maybeCompact threshold keep = (r, []) ∧ (r.log.length ≤ threshold ∨
        r.applied - keep ≤ r.baseSeq ∨ r.entry (r.applied - keep) = none) ∨
      threshold < r.log.length ∧ r.baseSeq < r.applied - keep ∧
      ∃ e, r.entry (r.applied - keep) = some e ∧ r.maybeCompact threshold keep = ({ r with
            log := r.log.drop (r.applied - keep - r.baseSeq)
            baseSeq := r.applied - keep
            baseEpoch := e.epoch }, [.compactLog (r.applied - keep), .act .persistMeta]) := by
  unfold Raft.maybeCompact
  split_ifs with hlen
  · exact .inl ⟨rfl, .inl hlen⟩
  unfold Raft.perform Raft.compact
  by_cases hle : r.applied - keep ≤ r.baseSeq
  · simp only [if_pos hle]
    exact .inl ⟨rfl, .inr (.inl hle)⟩
  simp only [if_neg hle]
  cases hent : r.entry (r.applied - keep) with
  | none => exact .inl ⟨rfl, .inr (.inr rfl)⟩
  | some e => exact .inr ⟨by omega, by omega, e, rfl, rfl⟩

variable {r r' : Raft}

theorem Raft.Intact.of_drop (hc : Contiguous r) {j : ℕ}
    (hlog : r'.log = r.log.drop j) (hb : r'.baseSeq = r.baseSeq + j) : r.Intact r' where
  contiguous i e he := by
    rw [hlog, getElem?_drop] at he
    have := hc _ e he
    omega
  same n e he := by
    unfold Raft.entry at he ⊢
    split_ifs at he with hn
    rw [hlog, getElem?_drop] at he
    rw [if_neg (by omega), ← he]
    congr 1
    omega

theorem Raft.Intact.of_nil (hlog : r'.log = []) : r.Intact r' where
  contiguous i e he := by simp [hlog] at he
  same n e he := by
    unfold Raft.entry at he
    simp [hlog] at he

theorem Raft.Intact.drop_eq_nil (hc : Contiguous r) {j : ℕ} (hj : 0 < j)
    (hlog : r'.log = r.log.drop j) (hb : r'.baseSeq = r.baseSeq) (h : r.Intact r') :
    r.log.drop j = [] := by
  -- the first entry left has number `baseSeq + j + 1` and would have to have `baseSeq + 1`
  rcases hrest : r.log.drop j with _ | ⟨e, rest⟩
  · rfl
  · have h₁ : e.seq = r'.baseSeq + 0 + 1 := h.contiguous 0 e (by simp [hlog, hrest])
    have h₂ : e.seq = r.baseSeq + j + 1 := hc j e (by
      rw [← Nat.add_zero j, ← getElem?_drop, hrest]
      rfl)
    omega

/-- **When a compaction may be stopped anywhere.** -/
theorem crashConsistent_iff {d : Replica} {limits : ℕ × ℕ} (hc : Contiguous d.raft)
    (hs : d.store.Holds d.raft) : d.CrashConsistent limits ↔ d.raft.log.length ≤ limits.1 ∨
      d.raft.applied - limits.2 ≤ d.raft.baseSeq ∨ d.raft.last.2 ≤ d.raft.applied - limits.2 := by
  have hmeta : d.store.loadD1Meta.2.2.1 = d.raft.baseSeq := congrArg (·.2.2.1) hs.meta_eq
  have hlast := hc.last_snd
  rcases d.raft.maybeCompact_cases limits.1 limits.2 with
    ⟨heq, hwhy⟩ | ⟨hlen, hbase, e, hent, heq⟩
  · -- no transaction at all
    constructor
    · rintro -
      rcases hwhy with h | h | h
      · exact .inl h
      · exact .inr (.inl h)
      · right
        by_contra hno
        unfold Raft.entry at h
        rw [if_neg (by omega), getElem?_eq_none_iff] at h
        omega
    · rintro - k applied
      have hstore : d.stoppedStore limits k = d.store := by
        unfold Replica.stoppedStore
        rw [heq, take_nil]
        rfl
      rw [hstore]
      exact Raft.Intact.of_drop hc (j := 0) hs.mirrors.log_eq hmeta
  · have hone : (d.stoppedStore limits 1) =
        d.store.compactD1Log (d.raft.applied - limits.2) := by
      unfold Replica.stoppedStore
      rw [heq]
      rfl
    have hload : (d.stoppedStore limits 1).loadD1Log =
        d.raft.log.drop (d.raft.applied - limits.2 - d.raft.baseSeq) := by
      rw [hone]
      exact Store.loadD1Log_of_table (hs.compactD1Log hc hbase.le)
    constructor
    · intro h
      have hnil := (h 1 0).drop_eq_nil hc (by omega) hload (by rw [hone]; exact hmeta)
      rw [drop_eq_nil_iff] at hnil
      omega
    · intro hor k applied
      have hnil : d.raft.log.drop (d.raft.applied - limits.2 - d.raft.baseSeq) = [] := by
        rw [drop_eq_nil_iff]
        omega
      match k with
      | 0 =>
        exact Raft.Intact.of_drop hc (j := 0) hs.mirrors.log_eq hmeta
      | 1 => exact Raft.Intact.of_nil (hload.trans hnil)
      | k + 2 =>
        have hboth : (d.stoppedStore limits (k + 2)).loadD1Log =
            (d.stoppedStore limits 1).loadD1Log := by
          unfold Replica.stoppedStore
          rw [heq]
          simp only [take_succ_cons, take_nil]
          rfl
        exact Raft.Intact.of_nil (hboth.trans (hload.trans hnil))

/-- A member with `count` entries, all applied and stored. -/
def settledReplica (count : ℕ) : Replica :=
  let log := (range count).map fun i => ⟨1, i + 1, [10]⟩
  { raft := { Raft.new nodeA [nodeA, nodeB, nodeC] with
      epoch := 1, log := log, commit := count, applied := count }
    store := ⟨some (1, none, 0, 0), log.map fun e => (e.seq, e)⟩
    machine := log
    history := log }

theorem contiguous_settledReplica (count : ℕ) : Contiguous (settledReplica count).raft := by
  intro i e he
  simp only [settledReplica, getElem?_map, Option.map_eq_some_iff] at he
  obtain ⟨j, hj, rfl⟩ := he
  obtain ⟨-, rfl⟩ := List.getElem?_eq_some_iff.1 hj
  simp [settledReplica, Raft.new]

theorem holds_settledReplica (count : ℕ) :
    (settledReplica count).store.Holds (settledReplica count).raft := ⟨rfl, rfl⟩

/-- A database that keeps nothing drops its nine entries, and nothing is left to be misplaced. -/
theorem crashConsistent_settledReplica_whole :
    ((settledReplica 9).stoppedStore (compactLimits "orders".toList 8 0) 1).loadD1Log = [] ∧
      (settledReplica 9).CrashConsistent (compactLimits "orders".toList 8 0) :=
  ⟨by decide, (crashConsistent_iff (contiguous_settledReplica 9) (holds_settledReplica 9)).2
    (.inr (.inr (by decide)))⟩

/-- One of nine entries is: when the process stops behind the first transaction, the entry of
number 9 is restored as number 1. -/
theorem not_crashConsistent_settledReplica_nine :
    ¬ (settledReplica 9).CrashConsistent (compactLimits "rfdo-counter".toList 4096 256) := by
  intro h
  have := (h 1 9).contiguous 0 ⟨1, 9, [10]⟩ (by decide)
  revert this
  decide

end RandallFlare
