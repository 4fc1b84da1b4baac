import RandallFlare.Quorum.Spec
import RandallFlare.Quorum.Cluster

/-!
# The drivers of a database and their clients

`Driver` in `rf/src/d1.rs` is a member of the replica group that also answers requests.  A request
is answered at once by a member that does not lead, when it is a read, or when SQLite refuses it;
a write is proposed and its requester waits until the driver applies the entry, or until the driver
steps down.

* `Desk`: the requests a driver has not answered yet, `Desk.execute` what executing actions does to
  them;
* `Fleet`: the members of a group, their desks, and every reply given so far;
* `Fleet.step`: one event of one driver.

A read is answered with the contents of the driver's state machine.  Whether SQLite takes a
statement for a read is part of the request here.
-/

namespace RandallFlare

open Raft List

/-- What a requester is told. -/
inductive Answer
  /-- Neither rows nor a count, only where to ask instead. -/
  | misdirected (leaderHint : Option PublicId)
  /-- The answer to a read, from the given contents of the state machine. -/
  | rows (contents : List Entry)
  | refused
  /-- The proposed entry was applied, by the leader of `epoch`. -/
  | applied (epoch : ℕ) (e : Entry)
  deriving DecidableEq

/-- Requests in flight. -/
structure Desk where
  /-- The tags of the requests that wait for an answer. -/
  pending : List ℕ
  /-- Position and tag of the entries proposed here. -/
  myEntries : List (ℕ × ℕ)
  deriving DecidableEq

namespace Desk

/-- No request. -/
def empty : Desk := ⟨[], []⟩

/-- A proposal got position `seq`. -/
def register (k : Desk) (seq tag : ℕ) : Desk where
  pending := k.pending.insert tag
  myEntries := (seq, tag) :: k.myEntries.filter fun p => p.1 ≠ seq

/-- Answer the proposer of an entry that was applied in `epoch`, if it was proposed here. -/
def settle (k : Desk) (epoch : ℕ) (e : Entry) : Desk × List (ℕ × Answer) :=
  match k.myEntries.lookup e.seq with
  | none => (k, [])
  | some tag =>
      let rest := k.myEntries.filter fun p => p.1 ≠ e.seq
      if tag ∈ k.pending then (⟨k.pending.erase tag, rest⟩, [(tag, .applied epoch e)])
      else (⟨k.pending, rest⟩, [])

/-- What one action does to the requests. -/
def react (k : Desk) (epoch : ℕ) : Effect → Desk × List (ℕ × Answer)
  | .act (.apply e) => k.settle epoch e
  | .act .lostLeadership => (empty, k.pending.map fun tag => (tag, .misdirected none))
  | _ => (k, [])

/-- Actions in order; the answers come in the same order. -/
def execute (k : Desk) (epoch : ℕ) : List Effect → Desk × List (ℕ × Answer)
  | [] => (k, [])
  | a :: as =>
      let rest := (k.react epoch a).1.execute epoch as
      (rest.1, (k.react epoch a).2 ++ rest.2)

theorem execute_append (k : Desk) (epoch : ℕ) (as bs : List Effect) :
    k.execute epoch (as ++ bs) = (((k.execute epoch as).1.execute epoch bs).1,
      (k.execute epoch as).2 ++ ((k.execute epoch as).1.execute epoch bs).2) := by
  induction as generalizing k with
  | nil => rfl
  | cons a as ih => simp [execute, ih]

variable {k : Desk} {epoch : ℕ} {as : List Effect}

/-- A request in flight is answered by stepping down, or by applying the entry it waits for. -/
theorem mem_react {a : Effect} {p : ℕ × Answer} (h : p ∈ (k.react epoch a).2) :
    p.2 = .misdirected none ∨ ∃ e, a = .act (.apply e) ∧ p.2 = .applied epoch e ∧
      k.myEntries.lookup e.seq = some p.1 := by
  unfold react at h
  split at h
  · unfold settle at h
    split at h
    · cases h
    · rename_i hlook
      split_ifs at h
      · cases mem_singleton.1 h
        exact .inr ⟨_, rfl, rfl, hlook⟩
      · cases h
  · obtain ⟨tag, -, rfl⟩ := mem_map.1 h
    exact .inl rfl
  · cases h

theorem mem_execute {p : ℕ × Answer} (h : p ∈ (k.execute epoch as).2) :
    p.2 = .misdirected none ∨ ∃ e, p.2 = .applied epoch e ∧ .act (.apply e) ∈ as := by
  induction as generalizing k with
  | nil => cases h
  | cons a as ih =>
    rcases mem_append.1 h with h | h
    · exact (mem_react h).imp_right fun ⟨e, ha, hp, _⟩ => ⟨e, hp, ha ▸ mem_cons_self⟩
    · exact (ih h).imp_right fun ⟨e, hp, he⟩ => ⟨e, hp, mem_cons_of_mem _ he⟩

theorem mem_execute_applied {tag E : ℕ} {e : Entry}
    (h : (tag, Answer.applied E e) ∈ (k.execute epoch as).2) :
    E = epoch ∧ .act (.apply e) ∈ as := by
  rcases mem_execute h with heq | ⟨e', heq, he'⟩
  · cases heq
  · cases heq
    exact ⟨rfl, he'⟩

theorem execute_of_nil (h : k.myEntries = []) (epoch : ℕ) (as : List Effect) :
    (k.execute epoch as).1.myEntries = [] ∧
      ∀ tag E e, (tag, Answer.applied E e) ∉ (k.execute epoch as).2 := by
  induction as generalizing k with
  | nil => exact ⟨h, fun _ _ _ hm => by cases hm⟩
  | cons a as ih =>
    have hreact : (k.react epoch a).1.myEntries = [] ∧
        ∀ tag E e, (tag, Answer.applied E e) ∉ (k.react epoch a).2 := by
      unfold react
      split
      · simp [settle, h]
      · simp [empty]
      · exact ⟨h, by simp⟩
    refine ⟨(ih hreact.1).1, fun tag E e hm => ?_⟩
    rcases mem_append.1 hm with hm | hm
    · exact hreact.2 tag E e hm
    · exact (ih hreact.1).2 tag E e hm

theorem execute_of_lost {before after : List Effect} (hb : ∀ e, Effect.act (.apply e) ∉ before) :
    (k.execute epoch (before ++ .act .lostLeadership :: after)).1.myEntries = [] ∧
      ∀ tag E e, (tag, Answer.applied E e) ∉
        (k.execute epoch (before ++ .act .lostLeadership :: after)).2 := by
  obtain ⟨hnil, hno⟩ := execute_of_nil (k := empty) rfl epoch after
  rw [execute_append]
  refine ⟨hnil, fun tag E e hm => ?_⟩
  rcases mem_append.1 hm with hm | hm
  · exact hb e (mem_execute_applied hm).2
  · rcases mem_append.1 hm with hm | hm
    · simp [react] at hm
    · exact hno tag E e hm

end Desk

/-! ### The drivers of one group -/

/-- What SQLite takes a statement, or a batch of them, for. -/
inductive Kind
  | read
  | write
  | refused
  deriving DecidableEq

/-- A request: `cmd` is the command a write is proposed as. -/
structure Request where
  tag : ℕ
  kind : Kind
  cmd : Bytes
  deriving DecidableEq

/-- A reply of `node` to the request `tag`. -/
structure Reply where
  node : PublicId
  tag : ℕ
  answer : Answer
  deriving DecidableEq

/-- The members of a group, their requests in flight, and the replies they gave. -/
structure Fleet where
  cluster : Cluster
  desks : PublicId → Desk
  replies : List Reply

/-- What a driver does: an operation of its own, or handling a request while it knows the addresses
of `peers`. -/
inductive Task
  | op (op : Op)
  | request (rq : Request) (peers : List PublicId)
  deriving DecidableEq

/-- Where a member that does not lead sends its requesters. -/
def Raft.leaderApiAddr (r : Raft) (peers : List PublicId) : Option PublicId :=
  r.leaderHint.filter fun hint => hint ≠ r.me ∧ hint ∈ peers

namespace Fleet

/-- All members start from nothing. -/
def init (group : List PublicId) : Fleet := ⟨Cluster.init group, fun _ => Desk.empty, []⟩

/-- The driver `id` answers at once. -/
def say (s : Fleet) (id : PublicId) (tag : ℕ) (answer : Answer) : Fleet :=
  { s with replies := s.replies ++ [⟨id, tag, answer⟩] }

/-- The driver `id` takes its instance through `op`, with the requests `desk` in flight. -/
def perform (group : List PublicId) (s : Fleet) (id : PublicId) (op : Op) (desk : Desk) :
    Option Fleet :=
  (s.cluster.step group (id, op)).map fun cluster =>
    let out := (s.cluster.nodes id).raft.perform op
    let answered := desk.execute out.1.epoch out.2
    { cluster := cluster
      desks := Function.update s.desks id answered.1
      replies := s.replies ++ answered.2.map fun p => ⟨id, p.1, p.2⟩ }

/-- One event of a run. -/
def step (group : List PublicId) (s : Fleet) (ev : PublicId × Task) : Option Fleet :=
  let d := s.cluster.nodes ev.1
  match ev.2 with
  -- commands are proposed for a request only
  | .op (.propose _) => none
  | .op op => s.perform group ev.1 op (s.desks ev.1)
  | .request rq peers =>
      if ev.1 ∉ group then none
      else if ¬ d.raft.isLeader then
        some (s.say ev.1 rq.tag (.misdirected (d.raft.leaderApiAddr peers)))
      else
        match rq.kind with
        | .read => some (s.say ev.1 rq.tag (.rows d.machine))
        | .refused => some (s.say ev.1 rq.tag .refused)
        | .write =>
            s.perform group ev.1 (.propose rq.cmd)
              ((s.desks ev.1).register (d.raft.last.2 + 1) rq.tag)

/-- The state after a list of events, starting from nothing. -/
def runFrom (group : List PublicId) (evs : List (PublicId × Task)) : Option Fleet :=
  Runs.run (step group) (init group) evs

variable {group : List PublicId}

/-- **What an event does**: an immediate answer, or an operation of the instance. -/
theorem step_cases {s t : Fleet} {id : PublicId} {task : Task}
    (h : s.step group (id, task) = some t) :
    (∃ tag answer, t = s.say id tag answer ∧ ∀ E e, answer ≠ .applied E e) ∨
      ∃ op desk, s.perform group id op desk = some t ∧
        (task = .op op ∧ desk = s.desks id ∧ (∀ cmd, op ≠ .propose cmd) ∨
          ∃ rq peers, task = .request rq peers ∧ rq.kind = .write ∧
            (s.cluster.nodes id).raft.isLeader ∧ op = .propose rq.cmd ∧
            desk = (s.desks id).register ((s.cluster.nodes id).raft.last.2 + 1) rq.tag) := by
  cases task with
  | op op =>
    cases op with
    | propose cmd => cases h
    | _ => exact .inr ⟨_, _, h, .inl ⟨rfl, rfl, fun cmd hc => by cases hc⟩⟩
  | request rq peers =>
    simp only [step] at h
    by_cases hid : id ∉ group
    · simp [hid] at h
    rw [if_neg hid] at h
    by_cases hl : (s.cluster.nodes id).raft.isLeader
    case neg =>
      rw [if_pos hl] at h
      cases h
      exact .inl ⟨_, _, rfl, fun _ _ hc => by cases hc⟩
    rw [if_neg (not_not.2 hl)] at h
    split at h
    · cases h
      exact .inl ⟨_, _, rfl, fun _ _ hc => by cases hc⟩
    · cases h
      exact .inl ⟨_, _, rfl, fun _ _ hc => by cases hc⟩
    · rename_i hkind
      exact .inr ⟨_, _, h, .inr ⟨rq, peers, rfl, hkind, hl, rfl, rfl⟩⟩

theorem step_rows {s t : Fleet} {b : PublicId} {rq : Request}
    {peers : List PublicId} {contents : List Entry}
    (h : s.step group (b, .request rq peers) = some t)
    (hrows : t.replies = s.replies ++ [⟨b, rq.tag, .rows contents⟩]) :
    b ∈ group ∧ (s.cluster.nodes b).raft.isLeader ∧ contents = (s.cluster.nodes b).machine := by
  have hsay : ∀ {answer}, (s.say b rq.tag answer).replies =
      s.replies ++ [⟨b, rq.tag, .rows contents⟩] → answer = .rows contents := by
    intro answer heq
    simpa [say] using heq
  simp only [step] at h
  by_cases hid : b ∉ group
  · simp [hid] at h
  rw [if_neg hid] at h
  by_cases hl : (s.cluster.nodes b).raft.isLeader
  case neg =>
    rw [if_pos hl] at h
    cases h
    cases hsay hrows
  rw [if_neg (not_not.2 hl)] at h
  refine ⟨not_not.1 hid, hl, ?_⟩
  split at h
  · cases h
    cases hsay hrows
    rfl
  · cases h
    cases hsay hrows
  · -- a proposal is answered with rows by nobody
    obtain ⟨c, -, rfl⟩ := Option.map_eq_some_iff.1 h
    have hmem : (⟨b, rq.tag, .rows contents⟩ : Reply) ∈
        map (fun p : ℕ × Answer => ⟨b, p.1, p.2⟩) _ :=
      (append_cancel_left hrows) ▸ mem_singleton_self _
    obtain ⟨p, hp, heq⟩ := mem_map.1 hmem
    obtain ⟨-, -, hans⟩ := (Reply.mk.injEq ..).mp heq
    rcases Desk.mem_execute hp with hq | ⟨e, hq, -⟩
    · rw [hans] at hq
      cases hq
    · rw [hans] at hq
      cases hq

end Fleet

/-! ### Stepping down -/

section

variable {r : Raft}

/-- The operation takes a leader out of its role, and says so before it applies anything. -/
def StepsDown (as : List Effect) : Prop :=
  ∃ before after, as = before ++ .act .lostLeadership :: after ∧
    ∀ e, Effect.act (.apply e) ∉ before

theorem StepsDown.append {as : List Effect} (h : StepsDown as) (bs : List Effect) :
    StepsDown (as ++ bs) := by
  obtain ⟨before, after, rfl, hb⟩ := h
  exact ⟨before, after ++ bs, by simp, hb⟩

section

variable (hl : r.isLeader)

include hl

theorem stepsDown_becomeFollower (epoch : ℕ) :
    StepsDown ((r.becomeFollower (D := List Entry) epoch).2.map .act) := by
  refine ⟨(if r.epoch < epoch then [.persistMeta] else []).map .act, [], ?_, fun e hm => ?_⟩
  · simp [becomeFollower, hl]
  · split_ifs at hm <;> simp at hm

theorem stepsDown_follow (sender : PublicId) (epoch : ℕ) :
    StepsDown ((r.follow (D := List Entry) sender epoch).2.map .act) := by
  have h := stepsDown_becomeFollower hl epoch
  unfold follow
  dsimp only
  split_ifs
  · rw [map_append]
    exact h.append _
  · exact h

theorem isLeader_advanceCommit : (r.advanceCommit (D := List Entry)).1.isLeader := by
  obtain ⟨c, a, heq⟩ := r.advanceCommit_fst (D := List Entry)
  rw [heq]
  exact hl

theorem isLeader_handle_or_stepsDown (sender : PublicId) (msg : Msg (List Entry)) :
    (r.handle sender msg).1.isLeader ∨ StepsDown ((r.handle sender msg).2.map .act) := by
  cases msg with
  | voteReq epoch lastEpoch lastSeq =>
    simp only [handle, handleVoteReq]
    by_cases hlt : r.epoch < epoch
    · right
      split_ifs <;> (rw [map_append]; exact (stepsDown_becomeFollower hl epoch).append _)
    · left
      split_ifs <;> exact hl
  | voteResp epoch granted =>
    simp only [handle, handleVoteResp]
    split_ifs with hlt hold
    · exact .inr (stepsDown_becomeFollower hl epoch)
    · exact .inl hl
    · left
      obtain ⟨next, matched, hr⟩ := isLeader_iff.1 hl
      simp [hr, tryWin, hl]
  | append epoch prevSeq prevEpoch entries commit =>
    simp only [handle, handleAppend]
    split_ifs
    · exact .inl hl
    · right
      rw [map_append]
      exact (stepsDown_follow hl sender epoch).append _
  | appendResp epoch matchSeq ok =>
    simp only [handle, handleAppendResp]
    split_ifs
    · exact .inr (stepsDown_becomeFollower hl epoch)
    all_goals left
    · exact hl
    all_goals
      split
      case h_2 => exact hl
    · exact isLeader_advanceCommit rfl
    · rfl
  | installSnapshot epoch lastSeq lastEpoch data =>
    simp only [handle, handleInstallSnapshot]
    split_ifs
    · exact .inl hl
    · right
      rw [map_append]
      exact (stepsDown_follow hl sender epoch).append _

theorem isLeader_propose (cmd : Bytes) : (r.perform (.propose cmd)).1.isLeader := by
  simp only [perform, propose, if_pos hl]
  exact isLeader_advanceCommit hl

/-- **A leader keeps its role in an operation, or steps down.** -/
theorem isLeader_perform_or_stepsDown (op : Op) :
    (r.perform op).1.isLeader ∨ StepsDown (r.perform op).2 := by
  cases op with
  | tickElection => exact .inl (by simp [perform, tickElection, hl])
  | heartbeat => exact .inl hl
  | propose cmd => exact .inl (isLeader_propose hl cmd)
  | compact keepTail =>
    left
    simp only [perform, compact]
    split_ifs
    · exact hl
    · split <;> exact hl
  | handle sender msg => exact isLeader_handle_or_stepsDown hl sender msg

end

end

end RandallFlare
