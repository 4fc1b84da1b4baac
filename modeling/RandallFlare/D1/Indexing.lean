import RandallFlare.D1.Machine

/-!
# Positions in the log

The index arithmetic of `rf-core/src/quorum.rs`: the log has no gaps, a position after the snapshot
point gives the index of its entry, and a leader sends from a position that has a predecessor.  The
source counts positions in 64 bits, where the number after the largest one is zero; before the
largest is reached or acknowledged (`Op.Fits`), the natural numbers of the model are the source's.

* `Raft.Indexed`: what the arithmetic rests on;
* `Raft.NextFits`: the positions a leader sends from, kept by every operation;
* `Raft.indexed_run`: every run of operations that fit.
-/

namespace RandallFlare

open Raft List

/-- What the index arithmetic on a log rests on. -/
structure Raft.Indexed (r : Raft) : Prop where
  contiguous : Contiguous r
  entry_eq : ∀ s, r.baseSeq < s → s ≤ r.last.2 → ∃ e, r.entry s = some e ∧ e.seq = s
  /-- The numbers that `prev_seq` is computed from, in 64 bits. -/
  next_pos : ∀ next matched, r.role = .leader next matched → ∀ p ∈ next, 1 ≤ p.2 % UInt64.size
  /-- Positions after the snapshot point have an index, at which `entry` looks and the append loop
  truncates. -/
  index : ∀ s, r.baseSeq < s → ∃ i, s = r.baseSeq + i + 1 ∧ r.entry s = r.log[i]? ∧
    ∀ e, e.seq = s → r.Conflicts e → (appendEntry (r, none) e).1.log = r.log.take i ++ [e]

/-- The positions that a leader sends from are positive numbers of 64 bits. -/
def Raft.NextFits (r : Raft) : Prop :=
  ∀ next matched, r.role = .leader next matched → ∀ p ∈ next, 1 ≤ p.2 ∧ p.2 < UInt64.size

/-- Neither the end of the log nor the position that a peer acknowledges is the largest number. -/
def Op.Fits (r : Raft) (op : Op) : Prop :=
  r.last.2 + 1 < UInt64.size ∧
    match op with
    | .handle _ (.appendResp _ matchSeq _) => matchSeq + 1 < UInt64.size
    | _ => True

instance Op.Fits.decidable (r : Raft) (op : Op) : Decidable (op.Fits r) := by
  unfold Op.Fits
  split <;> infer_instance

/-- An operation on an instance on its own. -/
def Raft.advance (r : Raft) (op : Op) : Option Raft := some (r.perform op).1

namespace Raft

variable {r r' : Raft} {op : Op} {D : Type}

theorem NextFits.congr (h : r.NextFits) (hrole : r'.role = r.role ∨ r'.isLeader = false) :
    r'.NextFits := by
  intro next matched hr
  rcases hrole with heq | hno
  · exact h next matched (heq ▸ hr)
  · simp [isLeader, hr] at hno

section

variable (h : r.NextFits) (hlast : r.last.2 + 1 < UInt64.size)

include h

theorem NextFits.becomeFollower (epoch : ℕ) : (r.becomeFollower (D := D) epoch).1.NextFits :=
  h.congr (.inr (by rw [becomeFollower_fst]; rfl))

theorem NextFits.advanceCommit : (r.advanceCommit (D := D)).1.NextFits := by
  obtain ⟨commit, applied, heq⟩ := r.advanceCommit_fst (D := D)
  exact h.congr (.inl (by rw [heq]))

include hlast

theorem NextFits.tryWin : (r.tryWin (D := D)).1.NextFits := by
  unfold Raft.tryWin
  split
  · split_ifs
    · exact h
    · intro next matched hr p hp
      cases hr
      obtain ⟨q, -, rfl⟩ := mem_map.1 hp
      exact ⟨by simp, hlast⟩
  · exact h

theorem NextFits.handleAppendResp (hc : Contiguous r) (sender : PublicId) (epoch : ℕ) {n : ℕ}
    (ok : Bool) (hn : n + 1 < UInt64.size) :
    (r.handleAppendResp (D := D) sender epoch n ok).1.NextFits := by
  rw [hc.last_snd] at hlast
  unfold Raft.handleAppendResp
  split_ifs
  · exact h.becomeFollower epoch
  · exact h
  all_goals split
  case h_2 | h_2 => exact h
  all_goals
    rename_i next matched hr
    first | refine NextFits.advanceCommit ?_ | skip
    intro next' matched' hr' p hp
    cases hr'
    rcases mem_updatePeer hp with hp | ⟨m, hm, rfl⟩
    · exact h next matched hr p hp
  · exact ⟨by simp, hn⟩
  · have hpos := h next matched hr (sender, m) hm
    dsimp only at hpos ⊢
    split_ifs <;> omega

/-- **Every operation that fits keeps the table of a leader within 64 bits.** -/
theorem NextFits.perform (hc : Contiguous r) (hop : op.Fits r) : (r.perform op).1.NextFits := by
  cases op with
  | tickElection =>
    unfold Raft.perform Raft.tickElection
    split_ifs
    · exact h
    · exact NextFits.tryWin (h.congr (.inr rfl)) hlast
  | heartbeat => exact h
  | propose cmd =>
    unfold Raft.perform Raft.propose
    split_ifs
    · exact NextFits.advanceCommit (h.congr (.inl rfl))
    · exact h
  | compact keepTail =>
    obtain ⟨log, baseSeq, baseEpoch, heq, -⟩ := r.compact_fst keepTail
    exact h.congr (.inl (by simp only [Raft.perform, heq]))
  | handle sender msg =>
    unfold Raft.perform Raft.handle
    cases msg with
    | voteReq epoch lastEpoch lastSeq =>
      dsimp only [Raft.handleVoteReq]
      split_ifs
      all_goals first
        | exact h.congr (.inl rfl)
        | exact (NextFits.becomeFollower (D := List Entry) h epoch).congr (.inl rfl)
    | voteResp epoch granted =>
      dsimp only [Raft.handleVoteResp]
      split_ifs
      · exact h.becomeFollower epoch
      · exact h
      · split
        · exact NextFits.tryWin (h.congr (.inr rfl)) hlast
        · exact h.tryWin hlast
    | append epoch prevSeq prevEpoch entries commit =>
      dsimp only [Raft.handleAppend]
      split_ifs
      · exact h
      · obtain ⟨log, c, a, heq⟩ := acceptAppend_fst (D := List Entry)
          (r.follow (D := List Entry) sender epoch).1 sender prevSeq prevEpoch entries commit
        exact h.congr (.inr (by rw [heq, follow_fst]; rfl))
    | appendResp epoch matchSeq ok => exact h.handleAppendResp hlast hc sender epoch ok hop.2
    | installSnapshot epoch lastSeq lastEpoch data =>
      dsimp only [Raft.handleInstallSnapshot]
      split_ifs
      · exact h
      · obtain ⟨log, b, f, c, a, heq⟩ := acceptSnapshot_fst
          (r.follow (D := List Entry) sender epoch).1 sender lastSeq lastEpoch data
        exact h.congr (.inr (by rw [heq, follow_fst]; rfl))

end

/-- **Log indexing in every run of operations that fit.** -/
theorem indexed_run (me : PublicId) (group : List PublicId) {ops : List Op}
    (hops : Runs.Meets advance (fun r op => op.Consecutive ∧ op.Fits r) (new me group) ops)
    (hrun : Runs.run advance (new me group) ops = some r) : r.Indexed := by
  obtain ⟨⟨hc, -⟩, hnext⟩ : r.Tidy ∧ r.NextFits := by
    refine Runs.run_invariant (P := fun r => r.Tidy ∧ r.NextFits) ?_ ⟨⟨?_, le_rfl⟩, ?_⟩ hops hrun
    · rintro s op t ⟨htidy, hfits⟩ ⟨hcon, hop⟩ ht
      cases ht
      exact ⟨tidy_perform htidy hcon, hfits.perform hop.1 htidy.contiguous hop⟩
    · exact fun i e he => by cases he
    · exact fun next matched hr => by cases hr
  refine ⟨hc, fun s hb hs => ?_, fun next matched hr p hp => ?_, fun s hb => ?_⟩
  · rw [hc.last_snd] at hs
    have he := getElem?_eq_getElem (show s - r.baseSeq - 1 < r.log.length by omega)
    have hseq := hc _ _ he
    exact ⟨_, by rw [entry, if_neg (by omega), he], by omega⟩
  · obtain ⟨hpos, hlt⟩ := hnext next matched hr p hp
    rwa [Nat.mod_eq_of_lt hlt]
  · refine ⟨s - r.baseSeq - 1, by omega, by rw [entry, if_neg (by omega)], ?_⟩
    rintro e rfl he
    rw [appendEntry_of_conflicts he]

theorem indexed_run_compacted : ∃ r, Runs.run advance (new nodeA [nodeA, nodeB])
    [.tickElection, .handle nodeB (.voteResp 1 true), .propose [7],
      .handle nodeB (.appendResp 1 1 true), .compact 0] = some r ∧ r.baseSeq = 1 ∧ r.Indexed :=
  Runs.exists_of_view Raft.baseSeq (by decide +kernel) fun r hr hb =>
    ⟨hb, indexed_run nodeA _ (by decide +kernel) hr⟩

/-- The peer of a leader acknowledges the largest number. -/
theorem next_wraps : ∃ r, Runs.run advance (new nodeA [nodeA, nodeB]) [.tickElection,
    .handle nodeB (.voteResp 1 true), .handle nodeB (.appendResp 1 (UInt64.size - 1) true)] =
      some r ∧ ¬ r.Indexed :=
  Runs.exists_of_view Raft.role (v := .leader [(nodeB, UInt64.size)] [(nodeB, UInt64.size - 1)])
    (by decide +kernel) fun r _ hrole h =>
      absurd (h.next_pos _ _ hrole _ mem_cons_self) (by decide)

end Raft

end RandallFlare
