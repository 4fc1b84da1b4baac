import Mathlib.Data.List.Sort
import Mathlib.Tactic

/-!
# The micro-quorum: one Raft instance

A translation of `rf-core/src/quorum.rs`.  `epoch` is Raft's term, `seq` the log index.  The source
mutates a `Raft` and returns the `Action`s its driver has to execute; here every operation returns
the new instance together with the actions.  Sequence numbers and epochs are natural numbers,
commands are byte strings, and the snapshot payload is any type `D` (the source ships the bytes of
the state machine).

* `Raft`, `Role`, `Entry`, `Msg`, `Action` are the source's types;
* `Raft.tickElection`, `Raft.heartbeat`, `Raft.propose`, `Raft.compact` and `Raft.handle` are its
  public operations, `Raft.new` and `Raft.restore` its constructors.
-/

namespace RandallFlare

/-- A node's identity: its 32-byte public key read as one big-endian number, so that the byte-wise
order of keys is the order of the numbers. -/
structure PublicId where
  key : BitVec 256
  deriving DecidableEq

abbrev Bytes := List UInt8

structure Entry where
  epoch : ℕ
  seq : ℕ
  cmd : Bytes
  deriving DecidableEq

/-- The messages of the protocol, `D` being the payload of a snapshot. -/
inductive Msg (D : Type)
  | voteReq (epoch lastEpoch lastSeq : ℕ)
  | voteResp (epoch : ℕ) (granted : Bool)
  | append (epoch prevSeq prevEpoch : ℕ) (entries : List Entry) (commit : ℕ)
  | appendResp (epoch matchSeq : ℕ) (ok : Bool)
  | installSnapshot (epoch lastSeq lastEpoch : ℕ) (data : D)
  deriving DecidableEq

/-- What the driver must do after a transition, in this order. -/
inductive Action (D : Type)
  | persistMeta
  | persistLog (fromSeq : ℕ)
  | send (peer : PublicId) (msg : Msg D)
  | apply (entry : Entry)
  | applySnapshot (seq : ℕ) (data : D)
  | needSnapshot (peer : PublicId)
  | becameLeader
  | lostLeadership
  deriving DecidableEq

/-- A candidate counts votes, a leader tracks each peer's next and matched position. -/
inductive Role
  | follower
  | candidate (votes : List PublicId)
  | leader (next matched : List (PublicId × ℕ))
  deriving DecidableEq

/-- One member of a replica group. -/
structure Raft where
  me : PublicId
  /-- The full group, including `me`. -/
  group : List PublicId
  epoch : ℕ
  votedFor : Option PublicId
  /-- Everything at or below `baseSeq` has been compacted into the state machine. -/
  log : List Entry
  /-- Position and epoch of the last compacted entry. -/
  baseSeq : ℕ
  baseEpoch : ℕ
  commit : ℕ
  applied : ℕ
  role : Role
  /-- Routing hint learned from the leader's traffic. -/
  leader : Option PublicId
  deriving DecidableEq

namespace Raft

variable {D : Type}

def new (me : PublicId) (group : List PublicId) : Raft where
  me := me
  group := (if me ∈ group then group else group ++ [me]).insertionSort fun a b => a.key ≤ b.key
  epoch := 0
  votedFor := none
  log := []
  baseSeq := 0
  baseEpoch := 0
  commit := 0
  applied := 0
  role := .follower
  leader := none

/-- A member of the group keeps it as it is, up to the order. -/
theorem new_group_perm {me : PublicId} {group : List PublicId} (h : me ∈ group) :
    (new me group).group.Perm group := by
  show (List.insertionSort _ (if me ∈ group then group else group ++ [me])).Perm group
  rw [if_pos h]
  exact List.perm_insertionSort _ group

/-- An instance rebuilt from the persisted state and the state machine's applied mark. -/
def restore (me : PublicId) (group : List PublicId) (epoch : ℕ) (votedFor : Option PublicId)
    (baseSeq baseEpoch : ℕ) (log : List Entry) (applied : ℕ) : Raft :=
  { new me group with
    epoch := epoch
    votedFor := votedFor
    baseSeq := baseSeq
    baseEpoch := baseEpoch
    log := log
    commit := max applied baseSeq
    applied := max applied baseSeq }

def isLeader (r : Raft) : Bool :=
  match r.role with
  | .leader _ _ => true
  | _ => false

def leaderHint (r : Raft) : Option PublicId :=
  if r.isLeader then some r.me else r.leader.or r.votedFor

def majority (r : Raft) : ℕ := r.group.length / 2 + 1

/-- Epoch and position of the last entry. -/
def last (r : Raft) : ℕ × ℕ :=
  match r.log.getLast? with
  | some e => (e.epoch, e.seq)
  | none => (r.baseEpoch, r.baseSeq)

def entry (r : Raft) (seq : ℕ) : Option Entry :=
  if seq ≤ r.baseSeq then none else r.log[seq - r.baseSeq - 1]?

/-- The epoch at `seq` when known, in the log or at the snapshot point. -/
def epochAt (r : Raft) (seq : ℕ) : Option ℕ :=
  if seq = r.baseSeq then some r.baseEpoch else (r.entry seq).map Entry.epoch

def others (r : Raft) : List PublicId := r.group.filter fun p => p ≠ r.me

/-- Position and epoch the current state machine corresponds to. -/
def snapshotPoint (r : Raft) : ℕ × ℕ :=
  (r.applied,
    if r.applied = r.baseSeq then r.baseEpoch
    else ((r.entry r.applied).map Entry.epoch).getD r.baseEpoch)

/-- Drop the entries compacted into the state machine, keeping `keepTail` recent ones; true when
anything was dropped. -/
def compact (r : Raft) (keepTail : ℕ) : Raft × Bool :=
  let newBase := r.applied - keepTail
  if newBase ≤ r.baseSeq then (r, false)
  else match r.entry newBase with
    | none => (r, false)
    | some e =>
        ({ r with
            log := r.log.drop (newBase - r.baseSeq)
            baseSeq := newBase
            baseEpoch := e.epoch }, true)

/-- One pulse of a leader: a snapshot request for a peer whose next entry is compacted, the rest
of the log for every other peer. -/
def replicateAll (r : Raft) : List (Action D) :=
  match r.role with
  | .leader next _ =>
      next.map fun (peer, nextSeq) =>
        let prevSeq := nextSeq - 1
        if prevSeq < r.baseSeq then .needSnapshot peer
        else .send peer (.append r.epoch prevSeq ((r.epochAt prevSeq).getD 0)
          (r.log.filter fun e => nextSeq ≤ e.seq) r.commit)
  | _ => []

/-- The entries applied while the applied mark moves up `k` positions from `a`. -/
def applyLoop (r : Raft) : ℕ → ℕ → List Entry
  | 0, _ => []
  | k + 1, a => (r.entry (a + 1)).toList ++ applyLoop r k (a + 1)

def applyCommitted (r : Raft) : Raft × List (Action D) :=
  ({ r with applied := max r.applied r.commit },
    (r.applyLoop (r.commit - r.applied) r.applied).map .apply)

/-- The search for the new commit index: `k` positions from `n` on are left, `candidate` is the
best so far; the search stops at the first position without a majority. -/
def commitScan (r : Raft) (matched : List (PublicId × ℕ)) : ℕ → ℕ → ℕ → ℕ
  | 0, _, candidate => candidate
  | k + 1, n, candidate =>
      if r.majority ≤ 1 + matched.countP (fun p => n ≤ p.2) then
        commitScan r matched k (n + 1)
          (if (r.entry n).map Entry.epoch = some r.epoch then n else candidate)
      else candidate

def advanceCommit (r : Raft) : Raft × List (Action D) :=
  match r.role with
  | .leader _ matched =>
      let candidate := r.commitScan matched (r.last.2 - r.commit) (r.commit + 1) r.commit
      if r.commit < candidate then
        let out := applyCommitted { r with commit := candidate }
        (out.1, out.2 ++ out.1.replicateAll)
      else r.applyCommitted
  | _ => (r, [])

def becomeFollower (r : Raft) (epoch : ℕ) : Raft × List (Action D) :=
  let bump := r.epoch < epoch
  let r' := if bump then { r with epoch := epoch, votedFor := none, leader := none } else r
  ({ r' with role := .follower },
    (if bump then [.persistMeta] else []) ++ if r.isLeader then [.lostLeadership] else [])

def tryWin (r : Raft) : Raft × List (Action D) :=
  match r.role with
  | .candidate votes =>
      if votes.length < r.majority then (r, [])
      else
        let nextSeq := r.last.2 + 1
        let r' := { r with
          role := .leader (r.others.map fun p => (p, nextSeq)) (r.others.map fun p => (p, 0)) }
        (r', .becameLeader :: r'.replicateAll)
  | _ => (r, [])

/-- The election timeout fired. -/
def tickElection (r : Raft) : Raft × List (Action D) :=
  if r.isLeader then (r, [])
  else
    let r₁ := { r with
      epoch := r.epoch + 1
      votedFor := some r.me
      leader := none
      role := .candidate [r.me] }
    let out := r₁.tryWin
    (out.1, .persistMeta ::
      r₁.others.map (fun p => .send p (.voteReq r₁.epoch r₁.last.1 r₁.last.2)) ++ out.2)

def heartbeat (r : Raft) : List (Action D) := if r.isLeader then r.replicateAll else []

/-- Propose a command: its position, or a hint at who leads. -/
def propose (r : Raft) (cmd : Bytes) : Except (Option PublicId) (ℕ × Raft × List (Action D)) :=
  if r.isLeader then
    let seq := r.last.2 + 1
    let r₁ : Raft := { r with log := r.log ++ [⟨r.epoch, seq, cmd⟩] }
    let out := r₁.advanceCommit
    .ok (seq, out.1, .persistLog seq :: r₁.replicateAll ++ out.2)
  else .error r.leaderHint

/-! ### Handling a message -/

def handleVoteReq (r : Raft) (sender : PublicId) (epoch lastEpoch lastSeq : ℕ) :
    Raft × List (Action D) :=
  let out : Raft × List (Action D) :=
    if r.epoch < epoch then r.becomeFollower epoch else (r, [])
  let r₁ := out.1
  let upToDate := r₁.last.1 < lastEpoch ∨ r₁.last.1 = lastEpoch ∧ r₁.last.2 ≤ lastSeq
  let granted := decide (epoch = r₁.epoch ∧ upToDate ∧
    (r₁.votedFor = none ∨ r₁.votedFor = some sender))
  let resp : Action D := .send sender (.voteResp r₁.epoch granted)
  if granted ∧ r₁.votedFor = none then
    ({ r₁ with votedFor := some sender }, out.2 ++ [.persistMeta, resp])
  else (r₁, out.2 ++ [resp])

def handleVoteResp (r : Raft) (sender : PublicId) (epoch : ℕ) (granted : Bool) :
    Raft × List (Action D) :=
  if r.epoch < epoch then r.becomeFollower epoch
  else if epoch ≠ r.epoch ∨ ¬ granted then (r, [])
  else
    match r.role with
    | .candidate votes =>
        tryWin { r with
          role := .candidate (if sender ∈ votes then votes else votes ++ [sender]) }
    | _ => r.tryWin

/-- What an `Append` and an `InstallSnapshot` that are not stale begin with: follow the sender, and
remember it as the vote of an epoch in which none was cast. -/
def follow (r : Raft) (sender : PublicId) (epoch : ℕ) : Raft × List (Action D) :=
  let out : Raft × List (Action D) := r.becomeFollower epoch
  let r₁ : Raft := { out.1 with leader := some sender }
  if r₁.votedFor = none then
    ({ r₁ with votedFor := some sender }, out.2 ++ [.persistMeta])
  else (r₁, out.2)

/-- The log consistency check; anything below the snapshot point is committed history. -/
def prevOk (r : Raft) (prevSeq prevEpoch : ℕ) : Bool :=
  prevSeq = 0 ∨ prevSeq < r.baseSeq ∨ r.epochAt prevSeq = some prevEpoch

/-- Append one entry, truncating a conflicting suffix, and note where the log first changed. -/
def appendEntry : Raft × Option ℕ → Entry → Raft × Option ℕ
  | (r, persistFrom), e =>
      if e.seq ≤ r.baseSeq then (r, persistFrom)
      else if (r.entry e.seq).map Entry.epoch = some e.epoch then (r, persistFrom)
      else ({ r with log := r.log.take (e.seq - r.baseSeq - 1) ++ [e] }, persistFrom.or (some e.seq))

/-- Move the commit index up to the leader's, as far as the log goes. -/
def learnCommit (r : Raft) (commit : ℕ) : Raft × List (Action D) :=
  if r.commit < commit then applyCommitted { r with commit := min commit r.last.2 } else (r, [])

/-- The rest of an `Append` from the leader of the own epoch. -/
def acceptAppend (r : Raft) (sender : PublicId) (prevSeq prevEpoch : ℕ) (entries : List Entry)
    (commit : ℕ) : Raft × List (Action D) :=
  if ¬ r.prevOk prevSeq prevEpoch then
    let hint := max (min r.last.2 (prevSeq - 1)) r.baseSeq
    (r, [.send sender (.appendResp r.epoch hint false)])
  else
    let appended := entries.foldl appendEntry (r, none)
    let matchSeq := appended.1.last.2
    let committed : Raft × List (Action D) := appended.1.learnCommit commit
    (committed.1, (appended.2.map .persistLog).toList ++ committed.2 ++
      [.send sender (.appendResp committed.1.epoch matchSeq true)])

def handleAppend (r : Raft) (sender : PublicId) (epoch prevSeq prevEpoch : ℕ)
    (entries : List Entry) (commit : ℕ) : Raft × List (Action D) :=
  if epoch < r.epoch then (r, [.send sender (.appendResp r.epoch 0 false)])
  else
    let out : Raft × List (Action D) := r.follow sender epoch
    let rest : Raft × List (Action D) := out.1.acceptAppend sender prevSeq prevEpoch entries commit
    (rest.1, out.2 ++ rest.2)

/-- The rest of an `InstallSnapshot` from the leader of the own epoch. -/
def acceptSnapshot (r : Raft) (sender : PublicId) (lastSeq lastEpoch : ℕ) (data : D) :
    Raft × List (Action D) :=
  if lastSeq ≤ r.applied then
    -- stale snapshot, the state here is already past it
    (r, [.send sender (.appendResp r.epoch r.last.2 true)])
  else
    ({ r with
        log := []
        baseSeq := lastSeq
        baseEpoch := lastEpoch
        commit := lastSeq
        applied := lastSeq },
      [.applySnapshot lastSeq data, .persistMeta, .persistLog (lastSeq + 1),
        .send sender (.appendResp r.epoch lastSeq true)])

def handleInstallSnapshot (r : Raft) (sender : PublicId) (epoch lastSeq lastEpoch : ℕ) (data : D) :
    Raft × List (Action D) :=
  if epoch < r.epoch then (r, [.send sender (.appendResp r.epoch 0 false)])
  else
    let out : Raft × List (Action D) := r.follow sender epoch
    let rest : Raft × List (Action D) := out.1.acceptSnapshot sender lastSeq lastEpoch data
    (rest.1, out.2 ++ rest.2)

/-- Change the value stored for the first occurrence of `p`. -/
def updatePeer (p : PublicId) (f : ℕ → ℕ) : List (PublicId × ℕ) → List (PublicId × ℕ)
  | [] => []
  | (q, n) :: ps => if q = p then (q, f n) :: ps else (q, n) :: updatePeer p f ps

def handleAppendResp (r : Raft) (sender : PublicId) (epoch matchSeq : ℕ) (ok : Bool) :
    Raft × List (Action D) :=
  if r.epoch < epoch then r.becomeFollower epoch
  else if epoch ≠ r.epoch then (r, [])
  else
    match r.role with
    | .leader next matched =>
        if ok then
          advanceCommit { r with
            role := .leader (updatePeer sender (fun _ => matchSeq + 1) next)
              (updatePeer sender (fun m => max m matchSeq) matched) }
        else
          -- back up toward the follower's hint; at the floor only a snapshot can help
          let floor := r.baseSeq + 1
          let r' := { r with
            role := .leader (updatePeer sender (fun n =>
                if n ≤ floor then max r.baseSeq 1
                else max (min (matchSeq + 1) (n - 1)) floor) next) matched }
          (r', r'.replicateAll)
    | _ => (r, [])

def handle (r : Raft) (sender : PublicId) : Msg D → Raft × List (Action D)
  | .voteReq epoch lastEpoch lastSeq => r.handleVoteReq sender epoch lastEpoch lastSeq
  | .voteResp epoch granted => r.handleVoteResp sender epoch granted
  | .append epoch prevSeq prevEpoch entries commit =>
      r.handleAppend sender epoch prevSeq prevEpoch entries commit
  | .appendResp epoch matchSeq ok => r.handleAppendResp sender epoch matchSeq ok
  | .installSnapshot epoch lastSeq lastEpoch data =>
      r.handleInstallSnapshot sender epoch lastSeq lastEpoch data

end Raft

end RandallFlare
