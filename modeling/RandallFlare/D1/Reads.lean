import RandallFlare.D1.Driver
import RandallFlare.Quorum.Safety

/-!
# What a read sees

A driver answers reads from its own state machine as long as it takes itself for the leader.  It
asks nobody whether it still is, and it has applied of its predecessors' entries only what it has
committed itself or learned as a follower.  So a read may miss a write acknowledged before:
`deposedRun` shows a leader that was deposed without noticing.

What holds is `readsSee_caughtUp`: a read sees every write its own member acknowledged, every write
of its own epoch, and, once the reader has applied an entry of its own epoch, every write
acknowledged in an earlier one.
-/

namespace RandallFlare

open EpochLog Cluster List

/-- The event handles no message, or one that is vouched for. -/
def Fleet.Vouched (s : Fleet) (ev : PublicId × Task) : Prop :=
  match ev.2 with
  | .op op => op.Vouched (s.cluster.nodes ev.1).raft
  | .request _ _ => True

instance (s : Fleet) (ev : PublicId × Task) : Decidable (s.Vouched ev) := by
  unfold Fleet.Vouched
  split <;> infer_instance

/-- Whenever a driver `b` answers a read, it has applied the writes acknowledged before, as far as
they are `Fresh` for it: acknowledged by `a` as leader of `epoch`. -/
def ReadsSee (Fresh : PublicId → Replica → PublicId → ℕ → Prop) (group : List PublicId)
    (evs : List (PublicId × Task)) : Prop :=
  ∀ before b rq peers rest s t contents, before ++ (b, Task.request rq peers) :: rest = evs →
    Fleet.runFrom group before = some s → s.step group (b, .request rq peers) = some t →
    t.replies = s.replies ++ [⟨b, rq.tag, .rows contents⟩] →
    ∀ a tag epoch e, ⟨a, tag, .applied epoch e⟩ ∈ s.replies →
      Fresh b (s.cluster.nodes b) a epoch → e ∈ contents

/-- The reader acknowledged the write itself, or leads the epoch it was acknowledged in, or leads a
later one and has applied an entry of it. -/
def CaughtUp (b : PublicId) (d : Replica) (a : PublicId) (epoch : ℕ) : Prop :=
  b = a ∨ d.raft.epoch = epoch ∨
    epoch < d.raft.epoch ∧ ∃ x ∈ d.machine, x.epoch = d.raft.epoch

/-! ### What is applied stays in the history -/

namespace Replica

theorem history_executeOne (d : Replica) (a : Effect) : d.history ⊆ (d.executeOne a).1.history := by
  rcases a with a | n
  · cases a <;> simp [executeOne]
  · exact Subset.refl _

theorem history_execute (d : Replica) (as : List Effect) :
    d.history ⊆ (d.execute as).1.history := by
  induction as generalizing d with
  | nil => exact Subset.refl _
  | cons a as ih => exact Subset.trans (d.history_executeOne a) (ih _)

theorem history_step (d : Replica) (op : Op) : d.history ⊆ (d.step op).1.history :=
  history_execute { d with raft := (d.raft.perform op).1 } _

theorem mem_history_execute {as : List Effect} {e : Entry} (he : .act (.apply e) ∈ as)
    (d : Replica) : e ∈ (d.execute as).1.history := by
  induction as generalizing d with
  | nil => cases he
  | cons a as ih =>
    rcases mem_cons.1 he with rfl | he
    · exact history_execute _ as (by simp [executeOne])
    · exact ih he _

end Replica

section

variable {group : List PublicId} {g g' : Ghost} {s t : Fleet}

/-! ### What stands behind an acknowledgement -/

/-- The leader `a` of `epoch` has applied `e`, which is settled by that epoch. -/
structure Acked (group : List PublicId) (c : Cluster) (g : Ghost) (a : PublicId) (epoch : ℕ)
    (e : Entry) : Prop where
  mem : a ∈ group
  elected : g.elected epoch = some a
  history : e ∈ (c.nodes a).history
  settled : ∃ X, e ∈ X ∧ GhostSettled group g epoch X

/-- The abstract state `g` stands behind the drivers. -/
structure FleetSim (group : List PublicId) (s : Fleet) (g : Ghost) : Prop where
  sim : Sim group s.cluster g
  desks : ∀ id ∈ group, (s.desks id).myEntries = [] ∨ (s.cluster.nodes id).raft.isLeader
  acked : ∀ a tag epoch e, ⟨a, tag, .applied epoch e⟩ ∈ s.replies →
    Acked group s.cluster g a epoch e

variable {c : Cluster} {a : PublicId} {epoch : ℕ} {e : Entry} {id : PublicId} {tag : ℕ}
  {desk : Desk} {b : PublicId}

theorem Acked.mono {c' : Cluster} (hle : Le g g')
    (hhist : (c.nodes a).history ⊆ (c'.nodes a).history) (h : Acked group c g a epoch e) :
    Acked group c' g' a epoch e where
  mem := h.mem
  elected := (hle.elected _ _ h.elected).1
  history := hhist h.history
  settled := by
    obtain ⟨X, he, hX⟩ := h.settled
    exact ⟨X, he, hX.mono hle le_rfl⟩

theorem FleetSim.say (h : FleetSim group s g) {answer : Answer}
    (hno : ∀ E e, answer ≠ .applied E e) : FleetSim group (s.say id tag answer) g where
  sim := h.sim
  desks := h.desks
  acked a tag' epoch e hm := by
    rcases mem_append.1 hm with hm | hm
    · exact h.acked a tag' epoch e hm
    · simp only [mem_singleton, Reply.mk.injEq] at hm
      exact absurd hm.2.2.symm (hno epoch e)

/-- What a driver's desk may hold after an operation, and who acknowledges. -/
theorem desk_execute {r : Raft} (op : Op) (hdesk : desk.myEntries = [] ∨ r.isLeader) :
    ((desk.execute (r.perform op).1.epoch (r.perform op).2).1.myEntries = [] ∨
        (r.perform op).1.isLeader) ∧ ∀ tag E e, (tag, Answer.applied E e) ∈
          (desk.execute (r.perform op).1.epoch (r.perform op).2).2 →
        (r.perform op).1.isLeader ∧ E = (r.perform op).1.epoch ∧
          .act (.apply e) ∈ (r.perform op).2 := by
  rcases hdesk with hnil | hl
  · obtain ⟨hnil', hno⟩ := Desk.execute_of_nil hnil (r.perform op).1.epoch (r.perform op).2
    exact ⟨.inl hnil', fun tag E e hm => absurd hm (hno tag E e)⟩
  · rcases isLeader_perform_or_stepsDown hl op with hl' | ⟨before, after, has, hb⟩
    · exact ⟨.inr hl', fun tag E e hm => ⟨hl', Desk.mem_execute_applied hm⟩⟩
    · rw [has]
      obtain ⟨hnil', hno⟩ := Desk.execute_of_lost hb
      exact ⟨.inl hnil', fun tag E e hm => absurd hm (hno tag E e)⟩

theorem FleetSim.perform (hnd : group.Nodup) (h : FleetSim group s g) {op : Op}
    (hdesk : desk.myEntries = [] ∨ (s.cluster.nodes id).raft.isLeader)
    (hv : op.Vouched (s.cluster.nodes id).raft) (ht : s.perform group id op desk = some t) :
    ∃ g', FleetSim group t g' ∧ Le g g' := by
  obtain ⟨c, hc, rfl⟩ := Option.map_eq_some_iff.1 ht
  obtain ⟨g', hsim, hle⟩ := sim_step hnd h.sim (show s.cluster.Vouched (id, op) from hv) hc
  obtain ⟨hdesk', hnew⟩ := desk_execute op hdesk
  unfold step at hc
  split_ifs at hc with hcond
  cases hc
  refine ⟨g', ⟨hsim, fun w hw => ?_, fun a tag epoch e hm => ?_⟩, hle⟩
  · by_cases hwid : w = id
    · subst hwid
      simpa [Replica.step_raft] using hdesk'
    · simpa [put_nodes_of_ne _ hwid, hwid] using h.desks w hw
  · rcases mem_append.1 hm with hm | hm
    · refine (h.acked a tag epoch e hm).mono hle ?_
      by_cases ha : a = id
      · subst ha
        rw [put_nodes_self]
        exact Replica.history_step _ _
      · rw [put_nodes_of_ne _ ha]
        exact Subset.refl _
    · -- a new acknowledgement: the driver leads and has just applied the entry
      obtain ⟨p, hp, heq⟩ := mem_map.1 hm
      obtain ⟨rfl, rfl, hans⟩ := (Reply.mk.injEq ..).mp heq
      obtain ⟨hl, rfl, happ⟩ := hnew p.1 epoch e (hans ▸ hp)
      have hrep := hsim.nodes id hcond.1
      have hhist := Replica.mem_history_execute happ
        { s.cluster.nodes id with raft := ((s.cluster.nodes id).raft.perform op).1 }
      rw [put_nodes_self] at hrep
      obtain ⟨next, matched, hr⟩ := Raft.isLeader_iff.1 hl
      have hlead := hrep.raft.mem_leader (by rw [Replica.step_raft]; exact hr)
      have hepoch := hrep.raft.epoch
      rw [Replica.step_raft] at hepoch
      refine ⟨hcond.1, hepoch ▸ hlead.elected, ?_, _, hrep.history hhist, ?_⟩
      · rw [put_nodes_self]
        exact hhist
      · rw [← hepoch]
        simpa using hsim.machine_settled hcond.1

/-- **Every vouched-for event keeps the relation.** -/
theorem fleetSim_step (hnd : group.Nodup) {ev : PublicId × Task} (h : FleetSim group s g)
    (hv : s.Vouched ev) (hstep : s.step group ev = some t) : ∃ g', FleetSim group t g' ∧ Le g g' := by
  obtain ⟨id, task⟩ := ev
  rcases Fleet.step_cases hstep with ⟨tag, answer, rfl, hno⟩ |
    ⟨op, desk, hperf, ⟨rfl, rfl, -⟩ | ⟨rq, peers, -, -, hl, rfl, -⟩⟩
  · exact ⟨g, h.say hno, Le.refl g⟩
  · refine h.perform hnd ?_ hv hperf
    by_cases hid : id ∈ group
    · exact h.desks id hid
    · simp [Fleet.perform, step, hid] at hperf
  · refine h.perform hnd (.inr hl) ?_ hperf
    trivial

theorem fleetSim_init (group : List PublicId) : FleetSim group
    (Fleet.init group) EpochLog.init where
  sim := sim_init group
  desks _ _ := .inl rfl
  acked a tag epoch e hm := by cases hm

/-! ### Reading -/

/-- A leader that has applied an entry of its epoch has applied everything settled before. -/
theorem Sim.mem_machine_of_settled (hnd : group.Nodup) (h : Sim group c g) (hb : b ∈ group)
    (hl : (c.nodes b).raft.isLeader)
    (hlt : epoch < (c.nodes b).raft.epoch) {x : Entry} (hx : x ∈ (c.nodes b).machine)
    (hxe : x.epoch = (c.nodes b).raft.epoch) {X : List Entry} (he : e ∈ X)
    (hX : GhostSettled group g epoch X) : e ∈ (c.nodes b).machine := by
  have hrep := h.nodes b hb
  obtain ⟨next, matched, hr⟩ := Raft.isLeader_iff.1 hl
  have hlead := hrep.raft.mem_leader hr
  have hepoch := hrep.raft.epoch
  rcases hX with rfl | ⟨d, Y, hd, hY, hXY⟩
  · cases he
  have hstart : Y <+: g.start (g.epoch b) :=
    h.ghost.inv.chosen_start (fun _ _ hQ hR => hQ.meet hnd hR) hY
      (by rw [hlead.elected]; exact Option.some_ne_none _) (by omega)
  have hmachine : (c.nodes b).machine <+: g.lead (g.epoch b) := by
    rw [hrep.machine, hlead.lead]
    exact take_prefix _ _
  -- what the leader started with ends before the entry of its own epoch
  rcases prefix_or_prefix_of_prefix (h.ghost.inv.start_prefix _) hmachine with hin | hout
  · exact (hstart.trans hin).subset (hXY.subset he)
  · have := h.ghost.inv.start_lt _ x (hout.subset hx)
    omega

theorem FleetSim.mem_machine (hnd : group.Nodup) (h : FleetSim group s g)
    (hack : ⟨a, tag, .applied epoch e⟩ ∈ s.replies) (hb : b ∈ group)
    (hl : (s.cluster.nodes b).raft.isLeader) (hfresh : CaughtUp b (s.cluster.nodes b) a epoch) :
    e ∈ (s.cluster.nodes b).machine := by
  have hacked := h.acked a tag epoch e hack
  have hrep := h.sim.nodes b hb
  rcases hfresh with rfl | hepoch | ⟨hlt, x, hx, hxe⟩
  · exact hrep.history hacked.history
  · -- an epoch has one leader
    obtain ⟨next, matched, hr⟩ := Raft.isLeader_iff.1 hl
    have helected := (hrep.raft.mem_leader hr).elected
    rw [hrep.raft.epoch, hepoch, hacked.elected] at helected
    cases helected
    exact hrep.history hacked.history
  · obtain ⟨X, he, hX⟩ := hacked.settled
    exact h.sim.mem_machine_of_settled hnd hb hl hlt hx hxe he hX

end

/-- **What a read sees**, in every run whose messages are vouched for. -/
theorem readsSee_caughtUp {group : List PublicId} (hnd : group.Nodup) {evs : List (PublicId × Task)}
    (hv : Runs.Meets (Fleet.step group) Fleet.Vouched (Fleet.init group) evs) :
    ReadsSee CaughtUp group evs := by
  rintro before b rq peers rest s t contents rfl hs hstep hans a tag epoch e hack hfresh
  obtain ⟨g, hsim, -⟩ := Runs.run_simulation Le.refl (fun _ _ _ => Le.trans)
    (fun _ _ _ _ h hok hst => fleetSim_step hnd h hok hst) (fleetSim_init group) hv.left hs
  obtain ⟨hb, hl, rfl⟩ := Fleet.step_rows hstep hans
  exact hsim.mem_machine hnd hack hb hl hfresh

/-- The first member commits a write; the second is elected, commits another and is asked for a
read. -/
def handoverRun : List (PublicId × Task) :=
  [(nodeA, .op .tickElection), (nodeB, .op (.handle nodeA (.voteReq 1 0 0))),
    (nodeA, .op (.handle nodeB (.voteResp 1 true))), (nodeA, .request ⟨7, .write, [10]⟩ []),
    (nodeB, .op (.handle nodeA (.append 1 0 0 [⟨1, 1, [10]⟩] 0))),
    (nodeA, .op (.handle nodeB (.appendResp 1 1 true))),
    (nodeB, .op .tickElection), (nodeC, .op (.handle nodeB (.voteReq 2 1 1))),
    (nodeB, .op (.handle nodeC (.voteResp 2 true))), (nodeB, .request ⟨8, .write, [20]⟩ []),
    (nodeC, .op (.handle nodeB (.append 2 1 1 [⟨2, 2, [20]⟩] 0))),
    (nodeB, .op (.handle nodeC (.appendResp 2 0 false))),
    (nodeC, .op (.handle nodeB (.append 2 0 0 [⟨1, 1, [10]⟩, ⟨2, 2, [20]⟩] 0))),
    (nodeB, .op (.handle nodeC (.appendResp 2 2 true))), (nodeB, .request ⟨9, .read, []⟩ [])]

theorem readsSee_handoverRun : (Fleet.runFrom [nodeA, nodeB, nodeC] handoverRun).map Fleet.replies =
      some [⟨nodeA, 7, .applied 1 ⟨1, 1, [10]⟩⟩, ⟨nodeB, 8, .applied 2 ⟨2, 2, [20]⟩⟩,
        ⟨nodeB, 9, .rows [⟨1, 1, [10]⟩, ⟨2, 2, [20]⟩]⟩] ∧
      ReadsSee CaughtUp [nodeA, nodeB, nodeC] handoverRun :=
  ⟨by decide +kernel, readsSee_caughtUp (by decide) (by decide +kernel)⟩

/-- The first member is elected; the second, elected after it by the third, commits a write; the
first, which heard nothing of that, is asked for a read. -/
def deposedRun : List (PublicId × Task) :=
  [(nodeA, .op .tickElection), (nodeB, .op (.handle nodeA (.voteReq 1 0 0))),
    (nodeA, .op (.handle nodeB (.voteResp 1 true))), (nodeB, .op .tickElection),
    (nodeC, .op (.handle nodeB (.voteReq 2 0 0))),
    (nodeB, .op (.handle nodeC (.voteResp 2 true))), (nodeB, .request ⟨7, .write, [20]⟩ []),
    (nodeC, .op (.handle nodeB (.append 2 0 0 [⟨2, 1, [20]⟩] 0))),
    (nodeB, .op (.handle nodeC (.appendResp 2 1 true))), (nodeA, .request ⟨8, .read, []⟩ [])]

/-- A read answered by a leader that was deposed misses an acknowledged write. -/
theorem deposedRun_reads_stale :
    ¬ ReadsSee (fun _ _ _ _ => True) [nodeA, nodeB, nodeC] deposedRun := by
  intro h
  obtain ⟨s, hs, hrs⟩ : ∃ s ∈ Fleet.runFrom [nodeA, nodeB, nodeC] (deposedRun.take 9),
      s.replies = [⟨nodeB, 7, .applied 2 ⟨2, 1, [20]⟩⟩] := by decide +kernel
  obtain ⟨t, ht, hrt⟩ : ∃ t ∈ Fleet.runFrom [nodeA, nodeB, nodeC] deposedRun,
      t.replies = [⟨nodeB, 7, .applied 2 ⟨2, 1, [20]⟩⟩, ⟨nodeA, 8, .rows []⟩] := by decide +kernel
  have hstep : s.step [nodeA, nodeB, nodeC] (nodeA, .request ⟨8, .read, []⟩ []) = some t := by
    have ht' : Runs.run _ _ (deposedRun.take 9 ++ [(nodeA, .request ⟨8, .read, []⟩ [])]) = _ := ht
    obtain ⟨u, hu, hut⟩ := Runs.run_append_eq_some.1 ht'
    obtain rfl : u = s := Option.some.inj (hu.symm.trans hs)
    simpa [Runs.run_cons] using hut
  have := h (deposedRun.take 9) nodeA ⟨8, .read, []⟩ [] [] s t [] (by decide) hs hstep
    (by rw [hrs, hrt]; rfl) nodeB 7 2 ⟨2, 1, [20]⟩ (by simp [hrs]) trivial
  cases this

end RandallFlare
