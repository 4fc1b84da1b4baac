import RandallFlare.Quorum.Spec
import RandallFlare.Quorum.Cluster
import RandallFlare.Lib.Majority

/-!
# What an instance stands for in the abstract protocol

The abstract state (`Ghost`) is the one of `EpochLog`, with the members of the group as nodes and
majorities of the group as quorums.  A member's instance holds its whole log in the sense of
`Views`, its commit index covers a settled log, and its role is backed by what the abstract state
remembers: a candidate by the votes cast for it, a leader by its election and by the
acknowledgements behind its `matched` table.  A message in the network is backed likewise.

* `RaftSim`: the relation for one instance, `RaftSim.frame` its stability when others move;
* `Sim`: the relation for a whole cluster.
-/

namespace RandallFlare

open EpochLog

/-- The abstract state of a group. -/
abbrev Ghost := EpochLog.State PublicId Entry

section

variable (group : List PublicId)

abbrev GhostStep := EpochLog.Step Entry.epoch (Majority.Quorum group)

abbrev GhostMoves := EpochLog.Moves Entry.epoch (Majority.Quorum group)

abbrev GhostSettled := EpochLog.Settled Entry.epoch (Majority.Quorum group)

/-- The abstract invariant, and positions in the leaders' logs. -/
structure GhostInv (g : Ghost) : Prop where
  inv : EpochLog.Inv Entry.epoch (Majority.Quorum group) g
  numbered : ∀ e, Numbered (g.lead e)

/-- What backs a candidate. -/
structure CandidateSim (g : Ghost) (id : PublicId) (votes : List PublicId) : Prop where
  stood : (id, g.epoch id, g.log id) ∈ g.stood
  nodup : votes.Nodup
  mem : ∀ v ∈ votes, v ∈ group
  voted : ∀ v ∈ votes, ∃ L, (v, g.epoch id, id, L) ∈ g.votes
  notElected : g.elected (g.epoch id) ≠ some id

/-- What backs a leader. -/
structure LeaderSim (g : Ghost) (id : PublicId) (r : Raft) (next matched : List (PublicId × ℕ)) :
    Prop where
  elected : g.elected (g.epoch id) = some id
  lead : g.log id = g.lead (g.epoch id)
  next_keys : next.map Prod.fst = r.others
  matched_keys : matched.map Prod.fst = r.others
  next_le : ∀ p ∈ next, 1 ≤ p.2 ∧ p.2 ≤ (g.log id).length + 1
  matched_acked : ∀ p ∈ matched, p.2 = 0 ∨ ∃ m, p.2 ≤ m ∧ (p.1, g.epoch id, m) ∈ g.acks
  acked : (id, g.epoch id, (g.log id).length) ∈ g.acks

/-- What backs a role. -/
def RoleSim (g : Ghost) (id : PublicId) (r : Raft) : Role → Prop
  | .follower => True
  | .candidate votes => CandidateSim group g id votes
  | .leader next matched => LeaderSim g id r next matched

/-- The abstract state `g` backs everything the instance `r` of member `id` holds. -/
structure Backed (g : Ghost) (id : PublicId) (r : Raft) : Prop where
  me : r.me = id
  group_perm : r.group.Perm group
  epoch : g.epoch id = r.epoch
  views : Views r (g.log id)
  base_le : r.baseSeq ≤ r.commit
  applied_eq : r.applied = r.commit
  commit_le : r.commit ≤ (g.log id).length
  settled : GhostSettled group g (g.epoch id) ((g.log id).take r.commit)
  voted : ∀ c L, (id, g.epoch id, c, L) ∈ g.votes → r.votedFor = some c
  role : RoleSim group g id r r.role

/-- The abstract state `g` stands behind the instance `r` of member `id`: it backs what `r` holds,
and a leader's commit index is as high as `advance_commit` can take it. -/
structure RaftSim (g : Ghost) (id : PublicId) (r : Raft) : Prop extends Backed group g id r where
  commit_max : ∀ next matched, r.role = .leader next matched → ∀ n e, r.commit < n →
    r.Quorate matched n → (g.log id)[n - 1]? = some e → e.epoch ≠ g.epoch id

/-- What backs a message from `sender` to `receiver`. -/
def PacketSim (g : Ghost) (sender receiver : PublicId) : Msg (List Entry) → Prop
  | .voteReq epoch lastEpoch lastSeq =>
      ∃ L, (sender, epoch, L) ∈ g.stood ∧ lastEp Entry.epoch L = lastEpoch ∧ L.length = lastSeq
  | .voteResp epoch granted =>
      granted → sender ∈ group ∧ ∃ L, (sender, epoch, receiver, L) ∈ g.votes
  | .append epoch prevSeq prevEpoch entries commit =>
      g.elected epoch ≠ none ∧ ∃ M, M <+: g.lead epoch ∧ prevSeq ≤ M.length ∧
        entries = M.drop prevSeq ∧ prevEpoch = lastEp Entry.epoch (M.take prevSeq) ∧
        commit ≤ M.length ∧ GhostSettled group g epoch (M.take commit)
  | .appendResp epoch matchSeq ok => ok → ∃ m, matchSeq ≤ m ∧ (sender, epoch, m) ∈ g.acks
  | .installSnapshot epoch lastSeq lastEpoch data =>
      g.elected epoch ≠ none ∧ data <+: g.lead epoch ∧ data.length = lastSeq ∧
        lastEpoch = lastEp Entry.epoch data ∧ GhostSettled group g epoch data

/-- The abstract state stands behind a member: its state machine has applied what its instance
says, and nothing else ever was applied. -/
structure ReplicaSim (g : Ghost) (id : PublicId) (d : Replica) : Prop where
  raft : RaftSim group g id d.raft
  machine : d.machine = (g.log id).take d.raft.applied
  history : d.history ⊆ d.machine

/-- The abstract state `g` stands behind the cluster `s`. -/
structure Sim (s : Cluster) (g : Ghost) : Prop where
  ghost : GhostInv group g
  nodes : ∀ id ∈ group, ReplicaSim group g id (s.nodes id)
  net : ∀ p ∈ s.net, PacketSim group g p.1 p.2.1 p.2.2

end

variable {group : List PublicId} {g g' : Ghost} {id : PublicId} {r : Raft}

section

variable (hle : Le g g')

include hle

theorem PacketSim.mono {sender receiver : PublicId} {m : Msg (List Entry)}
    (h : PacketSim group g sender receiver m) : PacketSim group g' sender receiver m := by
  cases m with
  | voteReq epoch lastEpoch lastSeq =>
    obtain ⟨L, hL, hrest⟩ := h
    exact ⟨L, hle.stood hL, hrest⟩
  | voteResp epoch granted =>
    intro hg
    obtain ⟨hmem, L, hL⟩ := h hg
    exact ⟨hmem, L, hle.votes hL⟩
  | append epoch prevSeq prevEpoch entries commit =>
    obtain ⟨hne, M, hM, h₁, h₂, h₃, h₄, hset⟩ := h
    exact ⟨(hle.elected_ne hne).1, M, hM.trans (hle.lead epoch), h₁, h₂, h₃, h₄,
      hset.mono hle le_rfl⟩
  | appendResp epoch matchSeq ok =>
    intro hok
    obtain ⟨m, hm, hack⟩ := h hok
    exact ⟨m, hm, hle.acks hack⟩
  | installSnapshot epoch lastSeq lastEpoch data =>
    obtain ⟨hne, hdata, h₁, h₂, hset⟩ := h
    exact ⟨(hle.elected_ne hne).1, hdata.trans (hle.lead epoch), h₁, h₂, hset.mono hle le_rfl⟩

variable {v w : PublicId}

theorem CandidateSim.frame {votes : List PublicId}
    (hf : Frame v g g') (hw : w ≠ v) (h : CandidateSim group g w votes) :
    CandidateSim group g' w votes where
  stood := by rw [hf.epoch w hw, hf.log w hw]; exact hle.stood h.stood
  nodup := h.nodup
  mem := h.mem
  voted u hu := by
    obtain ⟨L, hL⟩ := h.voted u hu
    exact ⟨L, by rw [hf.epoch w hw]; exact hle.votes hL⟩
  notElected he := h.notElected (by rw [hf.epoch w hw] at he; exact hf.elected _ w hw he)

theorem LeaderSim.frame {next matched : List (PublicId × ℕ)}
    (hf : Frame v g g') (hw : w ≠ v) (h : LeaderSim g w r next matched) :
    LeaderSim g' w r next matched where
  elected := by rw [hf.epoch w hw]; exact (hle.elected _ _ h.elected).1
  lead := by rw [hf.log w hw, hf.epoch w hw, hf.lead _ w hw h.elected]; exact h.lead
  next_keys := h.next_keys
  matched_keys := h.matched_keys
  next_le := by rw [hf.log w hw]; exact h.next_le
  matched_acked p hp := by
    rw [hf.epoch w hw]
    refine (h.matched_acked p hp).imp_right ?_
    rintro ⟨m, hm, hack⟩
    exact ⟨m, hm, hle.acks hack⟩
  acked := by rw [hf.epoch w hw, hf.log w hw]; exact hle.acks h.acked

/-- Steps of another member do not disturb an instance. -/
theorem RaftSim.frame (hf : Frame v g g') (hw : w ≠ v)
    (h : RaftSim group g w r) : RaftSim group g' w r where
  me := h.me
  group_perm := h.group_perm
  epoch := by rw [hf.epoch w hw]; exact h.epoch
  views := by rw [hf.log w hw]; exact h.views
  base_le := h.base_le
  applied_eq := h.applied_eq
  commit_le := by rw [hf.log w hw]; exact h.commit_le
  settled := by rw [hf.epoch w hw, hf.log w hw]; exact h.settled.mono hle le_rfl
  voted c L hv := by
    rw [hf.epoch w hw] at hv
    exact h.voted c L (hf.votes w _ c L hw hv)
  role := by
    have hrole := h.role
    cases hr : r.role with
    | follower => trivial
    | candidate votes => rw [hr] at hrole; exact CandidateSim.frame hle hf hw hrole
    | leader next matched => rw [hr] at hrole; exact LeaderSim.frame hle hf hw hrole
  commit_max := by rw [hf.epoch w hw, hf.log w hw]; exact h.commit_max

theorem ReplicaSim.frame {d : Replica} (hf : Frame v g g')
    (hw : w ≠ v) (h : ReplicaSim group g w d) : ReplicaSim group g' w d where
  raft := h.raft.frame hle hf hw
  machine := by rw [hf.log w hw]; exact h.machine
  history := h.history

end

theorem sim_init (group : List PublicId) : Sim group (Cluster.init group) EpochLog.init where
  ghost := ⟨inv_init, fun e i x h => by simp [EpochLog.init] at h⟩
  nodes id hid :=
    { raft :=
        { me := rfl
          group_perm := Raft.new_group_perm hid
          epoch := rfl
          views := Views.new id group
          base_le := le_rfl
          applied_eq := rfl
          commit_le := le_rfl
          settled := .inl rfl
          voted := fun c L h => by cases h
          role := trivial
          commit_max := fun next matched h => by cases h }
      machine := rfl
      history := fun e h => h }
  net p hp := by cases hp

end RandallFlare
