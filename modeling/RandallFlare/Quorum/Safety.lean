import RandallFlare.Quorum.SimFollow

/-!
# State machine safety and leader completeness

The relation of `Sim` is kept by every event whose message is vouched for (`sim_step`), hence by
every such run (`sim_run`). What the members have applied is then always part of one history, and
what a leader has committed is held by the leader of every later epoch; logs match
(`logsAgree_of_vouched`).

Without the condition both fail: in `staleSuffixRun` a follower acknowledges entries of its own
that the leader never sent, the leader commits in their place entries of which no majority exists,
and a later leader commits others.
-/

namespace RandallFlare

open EpochLog Cluster List

/-! ### Executing actions -/

variable {group : List PublicId} {g : Ghost} {id : PublicId} {d : Replica} {s t : Cluster}
  {a : PublicId} {epoch : ℕ}

theorem Replica.execute_sim {final : List Entry} {as : List (Action (List Entry))}
    (h : RaftSim group g id d.raft) (hfinal : final = (g.log id).take d.raft.applied)
    (hacts : ActsSim group g id d.raft final d.machine as) (hhist : d.history ⊆ d.machine) :
    (d.execute (as.map .act)).1.raft = d.raft ∧ (d.execute (as.map .act)).1.machine = final ∧
      (d.execute (as.map .act)).1.history ⊆ final ∧
      ∀ p ∈ (d.execute (as.map .act)).2, PacketSim group g id p.1 p.2 := by
  induction as generalizing d with
  | nil =>
    have hm : d.machine = final := hacts
    exact ⟨rfl, hm, hm ▸ hhist, fun p hp => by cases hp⟩
  | cons a as ih =>
    cases a with
    | apply e =>
      exact ih (d := { d with machine := d.machine ++ [e], history := d.history ++ [e] }) h hfinal
        hacts (append_subset.2 ⟨fun x hx => mem_append_left _ (hhist hx), subset_append_right _ _⟩)
    | applySnapshot n data =>
      exact ih (d := { d with machine := data, history := d.history ++ data }) h hfinal hacts.2
        (append_subset.2 ⟨fun x hx => hacts.1.subset (hhist hx), Subset.refl _⟩)
    | send peer msg =>
      obtain ⟨h₁, h₂, h₃, h₄⟩ := ih h hfinal hacts.2.2 hhist
      refine ⟨h₁, h₂, h₃, fun p hp => ?_⟩
      rcases mem_cons.1 hp with rfl | hp
      · exact hacts.1
      · exact h₄ p hp
    | needSnapshot peer =>
      obtain ⟨h₁, h₂, h₃, h₄⟩ := ih h hfinal hacts.2.2 hhist
      refine ⟨h₁, h₂, h₃, fun p hp => ?_⟩
      rcases mem_cons.1 hp with rfl | hp
      · have hm : d.machine = (g.log id).take d.raft.applied :=
          (hacts.2.1 ⟨peer, rfl⟩).trans hfinal
        show PacketSim group g id peer (.installSnapshot _ _ _ d.machine)
        rw [hm]
        exact h.snapshot hacts.1 peer
      · exact h₄ p hp
    | persistMeta => exact ih (d := (d.executeOne (.act .persistMeta)).1) h hfinal hacts.2.2 hhist
    | persistLog fromSeq =>
      exact ih (d := (d.executeOne (.act (.persistLog fromSeq))).1) h hfinal hacts.2.2 hhist
    | becameLeader => exact ih h hfinal hacts.2.2 hhist
    | lostLeadership => exact ih h hfinal hacts.2.2 hhist

/-! ### One event -/

/-- The operation handles no message, or one that is vouched for. -/
def Op.Vouched (r : Raft) : Op → Prop
  | .handle _ msg => r.Vouched msg
  | _ => True

instance (r : Raft) (op : Op) : Decidable (op.Vouched r) :=
  match op with
  | .handle _ msg => (inferInstance : Decidable (r.Vouched msg))
  | .tickElection => .isTrue trivial
  | .heartbeat => .isTrue trivial
  | .propose _ => .isTrue trivial
  | .compact _ => .isTrue trivial

/-- The event handles no message, or one that is vouched for. -/
def Cluster.Vouched (s : Cluster) (ev : Event) : Prop := ev.2.Vouched (s.nodes ev.1).raft

instance (s : Cluster) (ev : Event) : Decidable (s.Vouched ev) :=
  inferInstanceAs (Decidable (ev.2.Vouched _))

section

variable {group : List PublicId} {g : Ghost} {id : PublicId} {d : Replica}

theorem ReplicaSim.of_simulated (h : ReplicaSim group g id d)
    {out : Raft × List (Action (List Entry))} (hs : Simulated group g id d.raft out) :
    ∃ g', GhostMoves group id g g' ∧ GhostInv group g' ∧
      ReplicaSim group g' id ({ d with raft := out.1 }.execute (out.2.map .act)).1 ∧
      ∀ p ∈ ({ d with raft := out.1 }.execute (out.2.map .act)).2,
        PacketSim group g' id p.1 p.2 := by
  obtain ⟨g', hmoves, hg', hsim, hacts⟩ := hs
  rw [← h.machine] at hacts
  obtain ⟨h₁, h₂, h₃, h₄⟩ := Replica.execute_sim (d := { d with raft := out.1 }) hsim rfl hacts
    h.history
  exact ⟨g', hmoves, hg', ⟨by rw [h₁]; exact hsim, by rw [h₁, h₂], by rw [h₂]; exact h₃⟩, h₄⟩

/-- **One operation of a member.** -/
theorem ReplicaSim.step (hnd : group.Nodup) (hid : id ∈ group) (hg : GhostInv group g)
    (h : ReplicaSim group g id d) {op : Op}
    (hmsg : ∀ sender msg, op = .handle sender msg → PacketSim group g sender id msg)
    (hv : op.Vouched d.raft) :
    ∃ g', GhostMoves group id g g' ∧ GhostInv group g' ∧ ReplicaSim group g' id (d.step op).1 ∧
      ∀ p ∈ (d.step op).2, PacketSim group g' id p.1 p.2 := by
  cases op with
  | tickElection => exact h.of_simulated (h.raft.simulated_tickElection hg hnd hid)
  | heartbeat => exact h.of_simulated (h.raft.simulated_heartbeat hg)
  | propose cmd =>
    cases hp : d.raft.propose (D := List Entry) cmd with
    | error e =>
      have hstep : d.step (.propose cmd) = (d, []) := by
        simp [Replica.step, Raft.perform, hp, Replica.execute]
      rw [hstep]
      exact ⟨g, .refl, hg, h, fun p hp => by cases hp⟩
    | ok out =>
      have hstep : d.step (.propose cmd) =
          { d with raft := out.2.1 }.execute (out.2.2.map .act) := by
        simp [Replica.step, Raft.perform, hp]
      rw [hstep]
      exact h.of_simulated (h.raft.simulated_propose hg hnd hid hp)
  | compact keepTail =>
    refine ⟨g, .refl, hg, ?_⟩
    have happ : (d.raft.compact keepTail).1.applied = d.raft.applied := by
      obtain ⟨log, b, be, heq, -⟩ := d.raft.compact_fst keepTail
      rw [heq]
    obtain ⟨h₁, h₂, h₃, h₄⟩ : (d.step (.compact keepTail)).1.raft = (d.raft.compact keepTail).1 ∧
        (d.step (.compact keepTail)).1.machine = d.machine ∧
        (d.step (.compact keepTail)).1.history = d.history ∧
        (d.step (.compact keepTail)).2 = [] := by
      unfold Replica.step Raft.perform
      dsimp only
      split_ifs <;> exact ⟨rfl, rfl, rfl, rfl⟩
    refine ⟨⟨by rw [h₁]; exact h.raft.compact keepTail, ?_, by rw [h₂, h₃]; exact h.history⟩, ?_⟩
    · rw [h₂, h₁, happ]
      exact h.machine
    · rw [h₄]
      exact fun p hp => by cases hp
  | handle sender msg =>
    exact h.of_simulated (h.raft.simulated_handle hnd hid hg (hmsg sender msg rfl) hv)

end

/-- **Every vouched-for event keeps the relation to the abstract protocol.** -/
theorem sim_step (hnd : group.Nodup)
    {ev : Event} (h : Sim group s g) (hv : s.Vouched ev) (hstep : s.step group ev = some t) :
    ∃ g', Sim group t g' ∧ Le g g' := by
  unfold step at hstep
  split_ifs at hstep with hcond
  obtain ⟨hid, hdel⟩ := hcond
  cases hstep
  obtain ⟨g', hmoves, hg', hrep, hout⟩ := (h.nodes ev.1 hid).step hnd hid h.ghost
    (fun sender msg hop => by
      rw [hop] at hdel
      exact h.net _ hdel) hv
  obtain ⟨hle, -, hframe⟩ := Moves.le_inv_frame hmoves h.ghost.inv
  refine ⟨g', ⟨hg', fun w hw => ?_, fun p hp => ?_⟩, hle⟩
  · by_cases hwv : w = ev.1
    · subst hwv
      rw [put_nodes_self]
      exact hrep
    · rw [put_nodes_of_ne _ hwv]
      exact (h.nodes w hw).frame hle hframe hwv
  · rcases mem_append.1 hp with hp | hp
    · exact (h.net p hp).mono hle
    · obtain ⟨m, hm, rfl⟩ := mem_map.1 hp
      exact hout m hm

variable {evs : List Event} {group : List PublicId}

theorem sim_run (hnd : group.Nodup) (h : Sim group s g)
    (hv : Runs.Meets (step group) Cluster.Vouched s evs)
    (hrun : Runs.run (step group) s evs = some t) : ∃ g', Sim group t g' ∧ Le g g' :=
  Runs.run_simulation Le.refl (fun _ _ _ => Le.trans)
    (fun _ _ _ _ hs hok hstep => sim_step hnd hs hok hstep) h hv hrun

/-! ### State machine safety -/

/-- Entries ever applied at one position, or covered there by a snapshot, are the same on any two
members, and the state machines are prefixes of one another. -/
def Cluster.AppliedAgree (group : List PublicId) (s : Cluster) : Prop :=
  ∀ a ∈ group, ∀ b ∈ group,
    (∀ x ∈ (s.nodes a).history, ∀ y ∈ (s.nodes b).history, x.seq = y.seq → x = y) ∧
    ((s.nodes a).machine <+: (s.nodes b).machine ∨ (s.nodes b).machine <+: (s.nodes a).machine)

theorem Sim.machine_settled (h : Sim group s g) (ha : a ∈ group) : GhostSettled group g (g.epoch a)
    (s.nodes a).machine := by
  have hrep := h.nodes a ha
  rw [hrep.machine, hrep.raft.applied_eq]
  exact hrep.raft.settled

theorem Sim.machine_numbered (h : Sim group s g) (ha : a ∈ group) : Numbered
    (s.nodes a).machine := by
  have hrep := h.nodes a ha
  rw [hrep.machine]
  exact hrep.raft.views.numbered.anti (List.take_prefix _ _)

theorem Sim.appliedAgree (hnd : group.Nodup) (h : Sim group s g) : s.AppliedAgree group := by
  intro a ha b hb
  have hcompat := h.ghost.inv.settled_compat (fun _ _ hQ hR => hQ.meet hnd hR)
    (h.machine_settled ha) (h.machine_settled hb)
  refine ⟨fun x hx y hy hseq => ?_, hcompat⟩
  have hx' := (h.nodes a ha).history hx
  have hy' := (h.nodes b hb).history hy
  -- both entries are in the longer of the two state machines
  rcases hcompat with hpre | hpre
  · exact (h.machine_numbered hb).eq_of_seq (hpre.subset hx') hy' hseq
  · exact (h.machine_numbered ha).eq_of_seq hx' (hpre.subset hy') hseq

/-- **State machine safety** of every run whose messages are vouched for. -/
theorem appliedAgree_of_vouched (hnd : group.Nodup)
    {s : Cluster} (hv : Runs.Meets (step group) Cluster.Vouched (init group) evs)
    (hrun : runFrom group evs = some s) : s.AppliedAgree group := by
  obtain ⟨g, hsim, -⟩ := sim_run hnd (sim_init group) hv hrun
  exact hsim.appliedAgree hnd

/-- The first member is elected and commits a command with the second; the second is elected next. -/
def commitRun : List Event :=
  [(nodeA, .tickElection), (nodeB, .handle nodeA (.voteReq 1 0 0)),
    (nodeA, .handle nodeB (.voteResp 1 true)), (nodeA, .propose [10]),
    (nodeB, .handle nodeA (.append 1 0 0 [⟨1, 1, [10]⟩] 0)),
    (nodeA, .handle nodeB (.appendResp 1 1 true)),
    (nodeB, .handle nodeA (.append 1 1 1 [] 1)),
    (nodeB, .tickElection), (nodeC, .handle nodeB (.voteReq 2 1 1)),
    (nodeB, .handle nodeC (.voteResp 2 true))]

theorem appliedAgree_commitRun : ∃ s, runFrom [nodeA, nodeB, nodeC] commitRun = some s ∧
    (s.nodes nodeB).machine = [⟨1, 1, [10]⟩] ∧ s.AppliedAgree [nodeA, nodeB, nodeC] := by
  exact Runs.exists_of_view (fun s => (s.nodes nodeB).machine) (by decide +kernel)
    fun s hs hm => ⟨hm, appliedAgree_of_vouched (by decide) (by decide +kernel) hs⟩

/-- The first member proposes a command nobody receives; the second is elected by the third, sends
the first an empty `Append`, takes the answer for an acknowledgement and commits a command only it
holds; the first is elected by the third and commits its own. -/
def staleSuffixRun : List Event :=
  [(nodeA, .tickElection), (nodeB, .handle nodeA (.voteReq 1 0 0)),
    (nodeA, .handle nodeB (.voteResp 1 true)), (nodeA, .propose [10]),
    (nodeB, .tickElection), (nodeC, .handle nodeB (.voteReq 2 0 0)),
    (nodeB, .handle nodeC (.voteResp 2 true)),
    (nodeA, .handle nodeB (.append 2 0 0 [] 0)),
    (nodeB, .handle nodeA (.appendResp 2 1 true)), (nodeB, .propose [20]),
    (nodeA, .tickElection), (nodeC, .handle nodeA (.voteReq 3 1 1)),
    (nodeA, .handle nodeC (.voteResp 3 true)), (nodeA, .propose [30]),
    (nodeC, .handle nodeA (.append 3 1 1 [] 0)),
    (nodeA, .handle nodeC (.appendResp 3 0 false)),
    (nodeC, .handle nodeA (.append 3 0 0 [⟨1, 1, [10]⟩, ⟨3, 2, [30]⟩] 0)),
    (nodeA, .handle nodeC (.appendResp 3 2 true))]

/-- Two members end up with different first entries. -/
theorem staleSuffixRun_diverges : ∃ s, runFrom [nodeA, nodeB, nodeC] staleSuffixRun = some s ∧
      (s.nodes nodeA).history = [⟨1, 1, [10]⟩, ⟨3, 2, [30]⟩] ∧
      (s.nodes nodeB).history = [⟨2, 1, [20]⟩] ∧ ¬ s.AppliedAgree [nodeA, nodeB, nodeC] := by
  obtain ⟨s, hs, hA, hB⟩ : ∃ s ∈ runFrom [nodeA, nodeB, nodeC] staleSuffixRun,
      (s.nodes nodeA).history = [⟨1, 1, [10]⟩, ⟨3, 2, [30]⟩] ∧
      (s.nodes nodeB).history = [⟨2, 1, [20]⟩] := by decide +kernel
  refine ⟨s, hs, hA, hB, fun hagree => ?_⟩
  have := (hagree nodeA (by decide) nodeB (by decide)).1 ⟨1, 1, [10]⟩ (by simp [hA])
    ⟨2, 1, [20]⟩ (by simp [hB]) rfl
  cases this

/-! ### Leader completeness -/

/-- What a member holds: the entries its snapshot covers, then those of its log. -/
def Replica.held (d : Replica) : List Entry := d.machine.take d.raft.baseSeq ++ d.raft.log

/-- The member is leader of `epoch`. -/
def Cluster.Leads (s : Cluster) (id : PublicId) (epoch : ℕ) : Prop :=
  (s.nodes id).raft.isLeader ∧ (s.nodes id).raft.epoch = epoch

/-- Once the leader of an epoch has raised its commit index to `n`, the leader of every later epoch
holds the first `n` entries it had. -/
def LeaderCompleteness (group : List PublicId) (evs : List Event) : Prop :=
  ∀ pre ev post s s₁ s₂, pre ++ ev :: post <+: evs →
    runFrom group pre = some s → runFrom group (pre ++ [ev]) = some s₁ →
    runFrom group (pre ++ ev :: post) = some s₂ →
    ∀ a ∈ group, ∀ b ∈ group, ∀ epoch later n, s₁.Leads a epoch →
      (s.nodes a).raft.commit < n → (s₁.nodes a).raft.commit = n →
      s₂.Leads b later → epoch < later →
      (s₂.nodes b).held.take n = (s₁.nodes a).held.take n

theorem ReplicaSim.held_eq (h : ReplicaSim group g id d) : d.held = g.log id := by
  have happ := h.raft.applied_eq
  have hbase := h.raft.base_le
  unfold Replica.held
  rw [h.machine, take_take, min_eq_left (by omega)]
  exact h.raft.views.take_append_log

/-- What a leader has committed is settled by its epoch. -/
theorem Sim.settled_of_leads (h : Sim group s g) (ha : a ∈ group) (hl : s.Leads a epoch) :
    GhostSettled group g epoch ((s.nodes a).held.take (s.nodes a).raft.commit) := by
  have hrep := h.nodes a ha
  rw [hrep.held_eq, ← hl.2, ← hrep.raft.epoch]
  exact hrep.raft.settled

/-- What is settled by an epoch is held by its leader. -/
theorem Sim.prefix_held_of_leads (hnd : group.Nodup) (h : Sim group s g) {b : PublicId}
    (hb : b ∈ group) {later : ℕ} (hl : s.Leads b later) (hle : epoch ≤ later) {X : List Entry}
    (hX : GhostSettled group g epoch X) : X <+: (s.nodes b).held := by
  have hrep := h.nodes b hb
  obtain ⟨next, matched, hr⟩ := Raft.isLeader_iff.1 hl.1
  have hlead := hrep.raft.mem_leader hr
  rw [hrep.held_eq, hlead.lead]
  have hepoch : g.epoch b = later := hrep.raft.epoch.trans hl.2
  refine h.ghost.settled_lead hnd (hX.mono (Le.refl g) (hepoch ▸ hle)) ?_
  rw [hlead.elected]
  exact Option.some_ne_none _

/-- **Leader completeness** of every run whose messages are vouched for. -/
theorem leaderCompleteness_of_vouched (hnd : group.Nodup)
    (hv : Runs.Meets (step group) Cluster.Vouched (init group) evs) :
    LeaderCompleteness group evs := by
  rintro pre ev post s s₁ s₂ ⟨rest, rfl⟩ - hs₁ hs₂ a ha b hb epoch later n hla - rfl hlb hlt
  have hcons : pre ++ ev :: post = (pre ++ [ev]) ++ post := by simp
  rw [hcons] at hv hs₂
  -- the abstract state after `ev` only grows on the way to the later leader
  obtain ⟨g₁, hsim₁, -⟩ := sim_run hnd (sim_init group) hv.left.left hs₁
  obtain ⟨t, ht, hts₂⟩ := Runs.run_append_eq_some.1 hs₂
  obtain rfl : t = s₁ := Option.some.inj (ht.symm.trans hs₁)
  obtain ⟨g₂, hsim₂, hle⟩ := sim_run hnd hsim₁ (hv.left.right hs₁) hts₂
  have hset := (hsim₁.settled_of_leads ha hla).mono hle le_rfl
  have hpre := hsim₂.prefix_held_of_leads hnd hb hlb hlt.le hset
  have hcl := (hsim₁.nodes a ha).raft.commit_le
  rw [← (hsim₁.nodes a ha).held_eq] at hcl
  have := prefix_iff_eq_take.1 hpre
  rw [length_take, min_eq_left hcl] at this
  exact this.symm

theorem leaderCompleteness_commitRun : LeaderCompleteness [nodeA, nodeB, nodeC] commitRun :=
  leaderCompleteness_of_vouched (by decide) (by decide +kernel)

/-- The second member commits its command in epoch 2; the first, leader of epoch 3, holds
another. -/
theorem staleSuffixRun_loses_commit :
    ¬ LeaderCompleteness [nodeA, nodeB, nodeC] staleSuffixRun := by
  intro h
  -- what the second member has committed before and after its proposal
  obtain ⟨s, hs, hc⟩ : ∃ s ∈ runFrom [nodeA, nodeB, nodeC] (staleSuffixRun.take 9),
      (s.nodes nodeB).raft.commit = 0 := by decide +kernel
  obtain ⟨s₁, hs₁, hc₁, hl₁, hh₁⟩ : ∃ s ∈ runFrom [nodeA, nodeB, nodeC] (staleSuffixRun.take 10),
      (s.nodes nodeB).raft.commit = 1 ∧
      ((s.nodes nodeB).raft.isLeader ∧ (s.nodes nodeB).raft.epoch = 2) ∧
      (s.nodes nodeB).held = [⟨2, 1, [20]⟩] := by decide +kernel
  obtain ⟨s₂, hs₂, hl₂, hh₂⟩ : ∃ s ∈ runFrom [nodeA, nodeB, nodeC] (staleSuffixRun.take 13),
      ((s.nodes nodeA).raft.isLeader ∧ (s.nodes nodeA).raft.epoch = 3) ∧
      (s.nodes nodeA).held = [⟨1, 1, [10]⟩] := by decide +kernel
  have := h (staleSuffixRun.take 9) (nodeB, .propose [20])
    [(nodeA, .tickElection), (nodeC, .handle nodeA (.voteReq 3 1 1)),
      (nodeA, .handle nodeC (.voteResp 3 true))] s s₁ s₂ (by decide) hs hs₁ hs₂ nodeB (by decide)
    nodeA (by decide) 2 3 1 hl₁ (by omega) hc₁ hl₂ (by decide)
  rw [hh₁, hh₂] at this
  simp at this

/-- Logs that have entries of one epoch at one place are the same up to there. -/
def Cluster.LogsAgree (group : List PublicId) (s : Cluster) : Prop :=
  ∀ a ∈ group, ∀ b ∈ group, ∀ P Q x y, P ++ [x] <+: (s.nodes a).held →
    Q ++ [y] <+: (s.nodes b).held → P.length = Q.length → x.epoch = y.epoch → P ++ [x] = Q ++ [y]

/-- **Log matching**, in runs in which every message is vouched for. -/
theorem logsAgree_of_vouched (hnd : group.Nodup) {s : Cluster}
    (hv : Runs.Meets (step group) Cluster.Vouched (init group) evs)
    (hrun : runFrom group evs = some s) : s.LogsAgree group := by
  obtain ⟨g, hsim, -⟩ := sim_run hnd (sim_init group) hv hrun
  intro a ha b hb P Q x y hP hQ
  rw [(hsim.nodes a ha).held_eq] at hP
  rw [(hsim.nodes b hb).held_eq] at hQ
  exact (hsim.ghost.inv.log_sound a).agree (hsim.ghost.inv.log_sound b) hP hQ

theorem logsAgree_commitRun : ∃ s, runFrom [nodeA, nodeB, nodeC] commitRun = some s ∧
    (s.nodes nodeB).held = [⟨1, 1, [10]⟩] ∧ s.LogsAgree [nodeA, nodeB, nodeC] :=
  Runs.exists_of_view (fun s => (s.nodes nodeB).held) (by decide +kernel) fun s hs hm =>
    ⟨hm, logsAgree_of_vouched (by decide) (by decide +kernel) hs⟩

end RandallFlare
