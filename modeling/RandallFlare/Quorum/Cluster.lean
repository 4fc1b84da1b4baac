import RandallFlare.D1.Store
import RandallFlare.Lib.Runs

/-!
# A replica group

Each member of a group is a `Replica`: its Raft instance, the durable store, and the state machine
its driver feeds.  The state machine is what the source's own test harness uses, the list of the
entries applied so far; a snapshot is that list.  `Replica.execute` does what `Driver::execute` in
`rf/src/d1.rs` does with each action, in order, and `Cluster` adds the messages that were ever
sent: a message stays in `net` once sent, so it may be delivered late, in any order, more than
once or never.

An event of a run is one operation of one member, executed to the end.
-/

namespace RandallFlare

/-- What one member of a group holds. -/
structure Replica where
  raft : Raft
  store : Store
  /-- The state machine: the entries it has applied, in order. -/
  machine : List Entry
  /-- Every entry ever applied, and the contents of every snapshot ever installed. -/
  history : List Entry
  deriving DecidableEq

inductive Op
  | tickElection
  | heartbeat
  | propose (cmd : Bytes)
  | compact (keepTail : ℕ)
  | handle (sender : PublicId) (msg : Msg (List Entry))
  deriving DecidableEq

/-- What the driver does for an operation: an action of the instance, or, after a compaction, the
removal of the compacted keys from the store. -/
inductive Effect
  | act (action : Action (List Entry))
  | compactLog (uptoSeq : ℕ)
  deriving DecidableEq

/-- The outcome of an operation, with its actions as effects. -/
abbrev effects (out : Raft × List (Action (List Entry))) : Raft × List Effect :=
  (out.1, out.2.map .act)

theorem effects_append (r : Raft) (q as : List (Action (List Entry))) :
    effects (r, q ++ as) = (r, q.map .act ++ as.map .act) := by
  rw [effects, List.map_append]

/-- The instance after an operation, and what its driver has to do. -/
def Raft.perform (r : Raft) : Op → Raft × List Effect
  | .tickElection =>
      let out : Raft × List (Action (List Entry)) := r.tickElection
      (out.1, out.2.map .act)
  | .heartbeat => (r, r.heartbeat.map .act)
  | .propose cmd =>
      match r.propose cmd with
      | .ok out => (out.2.1, out.2.2.map .act)
      | .error _ => (r, [])
  | .compact keepTail =>
      let out := r.compact keepTail
      (out.1, if out.2 then [.compactLog out.1.baseSeq, .act .persistMeta] else [])
  | .handle sender msg => ((r.handle sender msg).1, (r.handle sender msg).2.map .act)

namespace Replica

/-- A member that starts from nothing. -/
def new (me : PublicId) (group : List PublicId) : Replica :=
  ⟨Raft.new me group, Store.empty, [], []⟩

/-- The snapshot the driver ships when asked for one. -/
def snapshot (d : Replica) : Msg (List Entry) :=
  .installSnapshot d.raft.epoch d.raft.snapshotPoint.1 d.raft.snapshotPoint.2 d.machine

/-- One step of `Driver::execute`, with the message it sends, if any. -/
def executeOne (d : Replica) : Effect → Replica × Option (PublicId × Msg (List Entry))
  | .act .persistMeta =>
      ({ d with
          store := d.store.putD1Meta d.raft.epoch d.raft.votedFor d.raft.baseSeq
            d.raft.baseEpoch }, none)
  | .act (.persistLog fromSeq) =>
      ({ d with
          store := d.store.putD1Log fromSeq (d.raft.log.filter fun e => fromSeq ≤ e.seq) }, none)
  | .act (.send peer msg) => (d, some (peer, msg))
  | .act (.apply e) => ({ d with machine := d.machine ++ [e], history := d.history ++ [e] }, none)
  | .act (.applySnapshot _ data) => ({ d with machine := data, history := d.history ++ data }, none)
  | .act (.needSnapshot peer) => (d, some (peer, d.snapshot))
  | .act .becameLeader => (d, none)
  | .act .lostLeadership => (d, none)
  | .compactLog uptoSeq => ({ d with store := d.store.compactD1Log uptoSeq }, none)

/-- Execute effects in order; the messages sent come in the same order. -/
def execute (d : Replica) : List Effect → Replica × List (PublicId × Msg (List Entry))
  | [] => (d, [])
  | a :: as =>
      let rest := (d.executeOne a).1.execute as
      (rest.1, (d.executeOne a).2.toList ++ rest.2)

theorem executeOne_raft (d : Replica) (a : Effect) : (d.executeOne a).1.raft = d.raft := by
  rcases a with a | n
  · cases a <;> rfl
  · rfl

theorem execute_raft (d : Replica) (as : List Effect) : (d.execute as).1.raft = d.raft := by
  induction as generalizing d with
  | nil => rfl
  | cons a as ih => exact (ih _).trans (d.executeOne_raft a)

/-- An operation and everything the driver does for it. -/
def step (d : Replica) (op : Op) : Replica × List (PublicId × Msg (List Entry)) :=
  { d with raft := (d.raft.perform op).1 }.execute (d.raft.perform op).2

theorem step_raft (d : Replica) (op : Op) : (d.step op).1.raft = (d.raft.perform op).1 :=
  execute_raft _ _

end Replica

/-- A message on its way: sender, receiver, contents. -/
abbrev Packet := PublicId × PublicId × Msg (List Entry)

/-- The members of a group and every message they ever sent. -/
structure Cluster where
  nodes : PublicId → Replica
  net : List Packet

/-- An event: a member and what it does. -/
abbrev Event := PublicId × Op

namespace Cluster

/-- All members start from nothing. -/
def init (group : List PublicId) : Cluster := ⟨fun id => Replica.new id group, []⟩

/-- A message is handled only by the member it was sent to. -/
def Deliverable (s : Cluster) (id : PublicId) : Op → Prop
  | .handle sender msg => (sender, id, msg) ∈ s.net
  | _ => True

instance (s : Cluster) (id : PublicId) (op : Op) : Decidable (s.Deliverable id op) := by
  cases op <;> unfold Deliverable <;> infer_instance

/-- The member `id` is replaced by `d` and has sent `out`. -/
def put (s : Cluster) (id : PublicId) (d : Replica) (out : List (PublicId × Msg (List Entry))) :
    Cluster where
  nodes := Function.update s.nodes id d
  net := s.net ++ out.map fun m => (id, m)

@[simp] theorem put_nodes_self (s : Cluster) (id : PublicId) (d : Replica)
    (out : List (PublicId × Msg (List Entry))) : (s.put id d out).nodes id = d := by
  simp [put]

theorem put_nodes_of_ne (s : Cluster) {id w : PublicId} (hw : w ≠ id) (d : Replica)
    (out : List (PublicId × Msg (List Entry))) : (s.put id d out).nodes w = s.nodes w := by
  simp [put, Function.update_of_ne hw]

/-- One event of a run. -/
def step (group : List PublicId) (s : Cluster) (ev : Event) : Option Cluster :=
  if ev.1 ∈ group ∧ s.Deliverable ev.1 ev.2 then
    some (s.put ev.1 ((s.nodes ev.1).step ev.2).1 ((s.nodes ev.1).step ev.2).2)
  else none

/-- The state after a list of events, starting from nothing. -/
def runFrom (group : List PublicId) (evs : List Event) : Option Cluster :=
  Runs.run (step group) (init group) evs

end Cluster

/-- Three members. -/
def nodeA : PublicId := ⟨1⟩

@[inherit_doc nodeA] def nodeB : PublicId := ⟨2⟩

@[inherit_doc nodeA] def nodeC : PublicId := ⟨3⟩

end RandallFlare
