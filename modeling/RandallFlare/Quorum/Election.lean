import RandallFlare.Quorum.Ballot

/-!
# Election safety across crashes

A member may crash at any point of the driver's work: it has performed an operation in memory and
executed the first `k` of its effects when the process dies, and it comes back through
`Raft::restore` from what the store then holds.

* `World`, `World.step`: the cluster with crashes, and a record of who was ever leader of what;
* `BallotInv`: no vote a member ever made durable is taken back, kept by `ballotInv_step`;
* `led_unique`: at most one member was ever leader of an epoch.
-/

namespace RandallFlare

open Replica List Cluster

/-! ### Crashes -/

/-- The instance `Driver::open` builds from the store and the state machine's applied mark. -/
def Replica.restored (id : PublicId) (group : List PublicId) (store : Store) (applied : ℕ) : Raft :=
  Raft.restore id group store.loadD1Meta.1 store.loadD1Meta.2.1 store.loadD1Meta.2.2.1
    store.loadD1Meta.2.2.2 store.loadD1Log applied

/-- An operation of which only the first `k` effects are executed. -/
def Replica.partialStep (d : Replica) (op : Op) (k : ℕ) :
    Replica × List (PublicId × Msg (List Entry)) :=
  { d with raft := (d.raft.perform op).1 }.execute ((d.raft.perform op).2.take k)

theorem Replica.step_eq_partialStep (d : Replica) (op : Op) :
    d.step op = d.partialStep op (d.raft.perform op).2.length := by
  unfold step partialStep
  rw [take_length]

/-- A cluster, and who was ever leader of which epoch. -/
structure World where
  cluster : Cluster
  led : List (PublicId × ℕ)

/-- What happens: an operation, or an operation cut short by a crash and a restart. -/
inductive Happening
  | act (ev : Event)
  | crash (ev : Event) (k applied : ℕ)

namespace World

def init (group : List PublicId) : World := ⟨Cluster.init group, []⟩

/-- The instance is leader, which is worth a record. -/
def leads (id : PublicId) (r : Raft) : List (PublicId × ℕ) :=
  if r.isLeader then [(id, r.epoch)] else []

def step (group : List PublicId) (w : World) : Happening → Option World
  | .act ev =>
      (w.cluster.step group ev).map fun s =>
        ⟨s, w.led ++ leads ev.1 (((w.cluster.nodes ev.1).raft.perform ev.2).1)⟩
  | .crash ev k applied =>
      if ev.1 ∈ group ∧ w.cluster.Deliverable ev.1 ev.2 then
        let out := (w.cluster.nodes ev.1).partialStep ev.2 k
        some ⟨w.cluster.put ev.1
            { out.1 with raft := restored ev.1 group out.1.store applied } out.2,
          w.led ++ leads ev.1 (((w.cluster.nodes ev.1).raft.perform ev.2).1)⟩
      else none

end World

/-! ### Executing effects -/

namespace Replica

/-- After some effects the meta record is the instance's, if it was written at all. -/
theorem execute_loadD1Meta (d : Replica) (as : List Effect) :
    (Effect.act .persistMeta ∈ as ∧ (d.execute as).1.store.loadD1Meta =
        (d.raft.epoch, d.raft.votedFor, d.raft.baseSeq, d.raft.baseEpoch)) ∨
      Effect.act .persistMeta ∉ as ∧ (d.execute as).1.store.loadD1Meta = d.store.loadD1Meta := by
  induction as generalizing d with
  | nil => exact .inr ⟨not_mem_nil, rfl⟩
  | cons a as ih =>
    have hraft := d.executeOne_raft a
    rcases ih (d.executeOne a).1 with ⟨hin, heq⟩ | ⟨hout, heq⟩
    · rw [hraft] at heq
      exact .inl ⟨mem_cons_of_mem a hin, heq⟩
    · by_cases ha : a = .act .persistMeta
      · subst ha
        exact .inl ⟨mem_cons_self, heq⟩
      · refine .inr ⟨fun hm => (mem_cons.1 hm).elim (fun h => ha h.symm) hout, ?_⟩
        refine heq.trans ?_
        rcases a with a | n
        · cases a <;> first | rfl | exact absurd rfl ha
        · rfl

theorem mem_execute_voteResp {d : Replica} {as : List Effect} {p : PublicId} {e : ℕ} {b : Bool}
    (h : (p, Msg.voteResp e b) ∈ (d.execute as).2) : Effect.act (.send p (.voteResp e b)) ∈ as := by
  induction as generalizing d with
  | nil => cases h
  | cons a as ih =>
    rcases mem_append.1 h with h | h
    · rcases a with a | n
      · cases a with
        | send q m =>
          obtain ⟨rfl, rfl⟩ := Prod.mk.inj (mem_singleton.1 h)
          exact mem_cons_self
        | needSnapshot q => cases (Prod.mk.inj (mem_singleton.1 h)).2
        | _ => cases h
      · cases h
    · exact mem_cons_of_mem a (ih h)

end Replica

/-! ### The invariant -/

section

variable (group : List PublicId) (V : Votes) (id : PublicId)

/-- What holds of a member between operations. -/
structure NodeBallot (d : Replica) : Prop where
  me : d.raft.me = id
  group_perm : d.raft.group.Perm group
  durable : d.store.loadD1Meta.1 = d.raft.epoch ∧ d.store.loadD1Meta.2.1 = d.raft.votedFor
  bound : ∀ e c, (id, e, c) ∈ V → e < d.raft.epoch ∨ e = d.raft.epoch ∧ d.raft.votedFor = some c
  recorded : ∀ c, d.raft.votedFor = some c → (id, d.raft.epoch, c) ∈ V
  role : RoleBallot group V id d.raft

/-- What holds of the world between operations. -/
structure BallotInv (w : World) : Prop where
  unique : ∀ v e c d, (v, e, c) ∈ V → (v, e, d) ∈ V → c = d
  nodes : ∀ id ∈ group, NodeBallot group V id (w.cluster.nodes id)
  net : ∀ v c e, (v, c, Msg.voteResp e true) ∈ w.cluster.net → v ∈ group ∧ (v, e, c) ∈ V
  led : ∀ p ∈ w.led, p.1 ∈ group ∧ Won group V p.1 p.2
  current : ∀ id ∈ group, (w.cluster.nodes id).raft.isLeader →
    (id, (w.cluster.nodes id).raft.epoch) ∈ w.led

end

variable {group : List PublicId} {V : Votes} {id : PublicId}

/-- The votes once the meta record of `id` is what `d` has. -/
def recordVote (V : Votes) (id : PublicId) (store : Store) : Votes :=
  V ∪ {x | x.1 = id ∧ x.2.1 = store.loadD1Meta.1 ∧ store.loadD1Meta.2.1 = some x.2.2}

section

variable {d : Replica} {op : Op} {k : ℕ}

variable (h : NodeBallot group V id d) (hel : Elects group V id d.raft (d.raft.perform op))
include h hel

/-- What is durable after some effects of an operation: the old epoch and vote, or the new. -/
theorem durable_partialStep :
    (d.partialStep op k).1.store.loadD1Meta.1 = (d.raft.perform op).1.epoch ∧
        (d.partialStep op k).1.store.loadD1Meta.2.1 = (d.raft.perform op).1.votedFor ∨
      (d.partialStep op k).1.store.loadD1Meta.1 = d.raft.epoch ∧
        (d.partialStep op k).1.store.loadD1Meta.2.1 = d.raft.votedFor ∧
        ∀ p e, (p, Msg.voteResp e true) ∉ (d.partialStep op k).2 := by
  unfold partialStep
  rcases execute_loadD1Meta { d with raft := (d.raft.perform op).1 }
    ((d.raft.perform op).2.take k) with ⟨-, heq⟩ | ⟨hout, heq⟩
  · rw [heq]
    exact .inl ⟨rfl, rfl⟩
  · rw [heq]
    rcases hel.persisted with ⟨he, hv⟩ | hp
    · rw [he, hv]
      exact .inl h.durable
    · -- nothing was sent before the meta record is written
      exact .inr ⟨h.durable.1, h.durable.2, fun p e hm =>
        hout (hp.mem_of_send (mem_execute_voteResp hm))⟩

theorem recordVote_bound {e : ℕ} {c : PublicId}
    (hmem : (id, e, c) ∈ recordVote V id (d.partialStep op k).1.store) :
    e < (d.partialStep op k).1.store.loadD1Meta.1 ∨ e = (d.partialStep op k).1.store.loadD1Meta.1 ∧
        (d.partialStep op k).1.store.loadD1Meta.2.1 = some c := by
  rcases hmem with hmem | ⟨-, he, hc⟩
  · have hle := hel.epoch_le
    rcases durable_partialStep (k := k) h hel with ⟨h₁, h₂⟩ | ⟨h₁, h₂, -⟩
    · rcases h.bound e c hmem with hlt | ⟨heq, hvote⟩
      · exact .inl (by omega)
      · rcases hle.eq_or_lt with heq' | hlt
        · exact .inr ⟨by omega, by rw [h₂]; exact hel.vote_kept heq'.symm c hvote⟩
        · exact .inl (by omega)
    · rw [h₁, h₂]
      exact h.bound e c hmem
  · exact .inr ⟨he, hc⟩

theorem recordVote_unique (hV : ∀ v e c c', (v, e, c) ∈ V → (v, e, c') ∈ V → c = c') :
    ∀ v e c c', (v, e, c) ∈ recordVote V id (d.partialStep op k).1.store →
      (v, e, c') ∈ recordVote V id (d.partialStep op k).1.store → c = c' := by
  -- a vote of the epoch that is durable is the vote the meta record has
  have hsame : ∀ e c c', (id, e, c) ∈ recordVote V id (d.partialStep op k).1.store →
      e = (d.partialStep op k).1.store.loadD1Meta.1 →
      (d.partialStep op k).1.store.loadD1Meta.2.1 = some c' → c = c' := by
    intro e c c' hmem he hc'
    rcases recordVote_bound h hel hmem with hlt | ⟨-, hc⟩
    · omega
    · exact Option.some.inj (hc.symm.trans hc')
  rintro v e c c' hc hc'
  rcases hc with hV₁ | ⟨rfl, he, hvote⟩
  · rcases hc' with hV₂ | ⟨rfl, he, hvote⟩
    · exact hV v e c c' hV₁ hV₂
    · exact hsame e c c' (.inl hV₁) he hvote
  · exact (hsame e c' c hc' he hvote).symm

theorem recordVote_sent {p : PublicId} {e : ℕ}
    (hm : (p, Msg.voteResp e true) ∈ (d.partialStep op k).2) :
    (id, e, p) ∈ recordVote V id (d.partialStep op k).1.store := by
  obtain ⟨he, hp⟩ := hel.grants p e (mem_of_mem_take (mem_execute_voteResp hm))
  rcases durable_partialStep (k := k) h hel with ⟨h₁, h₂⟩ | ⟨-, -, hno⟩
  · exact .inr ⟨rfl, by rw [h₁]; exact he, by rw [h₂]; exact hp⟩
  · exact absurd hm (hno p e)

end

theorem NodeBallot.frame {v w : PublicId} {d : Replica} {store : Store} (hw : w ≠ v)
    (h : NodeBallot group V w d) : NodeBallot group (recordVote V v store) w d where
  me := h.me
  group_perm := h.group_perm
  durable := h.durable
  bound e c hmem := by
    rcases hmem with hmem | ⟨hv, -⟩
    · exact h.bound e c hmem
    · exact absurd hv hw
  recorded c hc := .inl (h.recorded c hc)
  role := h.role.mono Set.subset_union_left

theorem NodeBallot.step {d : Replica} {op : Op} (h : NodeBallot group V id d)
    (hel : Elects group V id d.raft (d.raft.perform op)) :
    NodeBallot group (recordVote V id (d.step op).1.store) id (d.step op).1 := by
  have hraft : (d.step op).1.raft = (d.raft.perform op).1 := execute_raft _ _
  have hdur : (d.step op).1.store.loadD1Meta.1 = (d.step op).1.raft.epoch ∧
      (d.step op).1.store.loadD1Meta.2.1 = (d.step op).1.raft.votedFor := by
    rw [hraft]
    unfold Replica.step
    rcases execute_loadD1Meta { d with raft := (d.raft.perform op).1 }
      (d.raft.perform op).2 with ⟨-, heq⟩ | ⟨hout, heq⟩
    · rw [heq]
      exact ⟨rfl, rfl⟩
    · rcases hel.persisted with ⟨he, hv⟩ | ⟨before, after, has, -⟩
      · rw [heq, he, hv]
        exact h.durable
      · exact absurd (by rw [has]; simp) hout
  refine
    { me := by rw [hraft, hel.me, h.me]
      group_perm := by rw [hraft, hel.group_eq]; exact h.group_perm
      durable := hdur
      bound := fun e c hmem => ?_
      recorded := fun c hc => .inr ⟨rfl, hdur.1.symm, by rw [hdur.2, hc]⟩
      role := by rw [hraft]; exact hel.role.mono Set.subset_union_left }
  rw [← hdur.1, ← hdur.2]
  rw [step_eq_partialStep] at hmem ⊢
  exact recordVote_bound h hel hmem

theorem NodeBallot.crash {d : Replica} {op : Op} {k applied : ℕ} (hid : id ∈ group)
    (h : NodeBallot group V id d) (hel : Elects group V id d.raft (d.raft.perform op)) :
    NodeBallot group (recordVote V id (d.partialStep op k).1.store) id { (d.partialStep op k).1 with
        raft := restored id group (d.partialStep op k).1.store applied } where
  me := rfl
  group_perm := Raft.new_group_perm hid
  durable := ⟨rfl, rfl⟩
  bound _ _ hmem := recordVote_bound h hel hmem
  recorded _ hc := .inr ⟨rfl, rfl, hc⟩
  role := roleBallot_follower rfl

theorem mem_leads {p : PublicId × ℕ} {r : Raft} (h : p ∈ World.leads id r) :
    p = (id, r.epoch) ∧ r.isLeader := by
  unfold World.leads at h
  split_ifs at h with hl
  · exact ⟨mem_singleton.1 h, hl⟩
  · cases h

/-- The world after the member `ev.1` did `ev.2`, all of it or up to a crash. -/
theorem BallotInv.put {w : World} {ev : Event} {d' : Replica} {k : ℕ} (hid : ev.1 ∈ group)
    (h : BallotInv group V w) (hel : Elects group V ev.1 (w.cluster.nodes ev.1).raft
      ((w.cluster.nodes ev.1).raft.perform ev.2)) (hd' : NodeBallot group (recordVote V ev.1
      ((w.cluster.nodes ev.1).partialStep ev.2 k).1.store) ev.1 d')
    (hlead : d'.raft.isLeader → d'.raft = ((w.cluster.nodes ev.1).raft.perform ev.2).1) :
    BallotInv group (recordVote V ev.1 ((w.cluster.nodes ev.1).partialStep ev.2 k).1.store)
      ⟨w.cluster.put ev.1 d' ((w.cluster.nodes ev.1).partialStep ev.2 k).2,
        w.led ++ World.leads ev.1 ((w.cluster.nodes ev.1).raft.perform ev.2).1⟩ := by
  have hnode := h.nodes ev.1 hid
  refine ⟨recordVote_unique hnode hel h.unique, fun v hv => ?_, fun v c e hm => ?_,
    fun p hp => ?_, fun v hv hl => ?_⟩
  · by_cases hvid : v = ev.1
    · subst hvid
      rw [put_nodes_self]
      exact hd'
    · rw [put_nodes_of_ne _ hvid]
      exact (h.nodes v hv).frame hvid
  · rcases mem_append.1 hm with hm | hm
    · exact ⟨(h.net v c e hm).1, .inl (h.net v c e hm).2⟩
    · obtain ⟨m, hm, heq⟩ := mem_map.1 hm
      obtain ⟨rfl, rfl⟩ := Prod.mk.inj heq
      exact ⟨hid, recordVote_sent hnode hel hm⟩
  · rcases mem_append.1 hp with hp | hp
    · exact ⟨(h.led p hp).1, (h.led p hp).2.mono Set.subset_union_left⟩
    · obtain ⟨rfl, hl⟩ := mem_leads hp
      exact ⟨hid, (hel.role.won hl).mono Set.subset_union_left⟩
  · by_cases hvid : v = ev.1
    · subst hvid
      rw [put_nodes_self] at hl ⊢
      refine mem_append_right _ ?_
      have hr := hlead hl
      rw [hr] at hl ⊢
      simp [World.leads, hl]
    · rw [put_nodes_of_ne _ hvid] at hl ⊢
      exact mem_append_left _ (h.current v hv hl)

/-- **Every happening keeps the durable votes unique.** -/
theorem ballotInv_step {w w' : World} {x : Happening} (h : BallotInv group V w)
    (hstep : w.step group x = some w') : ∃ V', BallotInv group V' w' := by
  have hel : ∀ ev : Event, ev.1 ∈ group → w.cluster.Deliverable ev.1 ev.2 →
      Elects group V ev.1 (w.cluster.nodes ev.1).raft
        ((w.cluster.nodes ev.1).raft.perform ev.2) := by
    intro ev hid hdel
    have hnode := h.nodes ev.1 hid
    refine elects_perform hid hnode.me hnode.group_perm hnode.role hnode.recorded ?_
    intro sender e hop
    rw [hop] at hdel
    exact h.net sender ev.1 e hdel
  cases x with
  | act ev =>
    obtain ⟨s, hs, rfl⟩ := Option.map_eq_some_iff.1 hstep
    unfold Cluster.step at hs
    split_ifs at hs with hcond
    cases hs
    have hd' := (h.nodes ev.1 hcond.1).step (hel ev hcond.1 hcond.2)
    have hraft : ((w.cluster.nodes ev.1).step ev.2).1.raft =
        ((w.cluster.nodes ev.1).raft.perform ev.2).1 := execute_raft _ _
    rw [step_eq_partialStep] at hd' hraft ⊢
    exact ⟨_, h.put hcond.1 (hel ev hcond.1 hcond.2) hd' fun _ => hraft⟩
  | crash ev k applied =>
    simp only [World.step] at hstep
    split_ifs at hstep with hcond
    cases hstep
    exact ⟨_, h.put hcond.1 (hel ev hcond.1 hcond.2)
      ((h.nodes ev.1 hcond.1).crash hcond.1 (hel ev hcond.1 hcond.2)) fun hl => by cases hl⟩

theorem ballotInv_init (group : List PublicId) : BallotInv group ∅ (World.init group) where
  unique v e c d hc := by cases hc
  nodes id hid :=
    { me := rfl
      group_perm := Raft.new_group_perm hid
      durable := ⟨rfl, rfl⟩
      bound := fun e c hc => by cases hc
      recorded := fun c hc => by cases hc
      role := roleBallot_follower rfl }
  net v c e hm := by cases hm
  led p hp := by cases hp
  current id _ hl := by cases hl

/-- **Election safety**: at most one member is ever leader of an epoch, whatever crashes. -/
theorem led_unique (hnd : group.Nodup) {xs : List Happening} {w : World}
    (hrun : Runs.run (World.step group) (World.init group) xs = some w) :
    (∀ a b epoch, (a, epoch) ∈ w.led → (b, epoch) ∈ w.led → a = b) ∧
      ∀ id ∈ group, (w.cluster.nodes id).raft.isLeader →
        (id, (w.cluster.nodes id).raft.epoch) ∈ w.led := by
  obtain ⟨V, hV⟩ : ∃ V, BallotInv group V w :=
    Runs.run_invariant (P := fun w => ∃ V, BallotInv group V w)
      (fun _ _ _ ⟨_, h⟩ _ hstep => ballotInv_step h hstep) ⟨∅, ballotInv_init group⟩
      (Runs.meets_true _ _) hrun
  refine ⟨fun a b epoch ha hb => ?_, hV.current⟩
  obtain ⟨hag, hwa⟩ := hV.led _ ha
  obtain ⟨hbg, hwb⟩ := hV.led _ hb
  exact Won.eq hnd hV.unique hag hbg hwa hwb

/-- The second member crashes between writing its vote and sending it and is asked again; the first
wins and crashes; the third, in the same epoch, asks the second in vain. -/
def crashRun : List Happening :=
  [.act (nodeA, .tickElection), .crash (nodeB, .handle nodeA (.voteReq 1 0 0)) 2 0,
    .act (nodeB, .handle nodeA (.voteReq 1 0 0)), .act (nodeA, .handle nodeB (.voteResp 1 true)),
    .crash (nodeA, .heartbeat) 1 0, .act (nodeC, .tickElection),
    .act (nodeB, .handle nodeC (.voteReq 1 0 0)), .act (nodeC, .handle nodeB (.voteResp 1 false))]

theorem led_unique_crashRun : ∃ w, Runs.run (World.step [nodeA, nodeB, nodeC])
      (World.init [nodeA, nodeB, nodeC]) crashRun = some w ∧ w.led = [(nodeA, 1), (nodeA, 1)] ∧
      ∀ a b epoch, (a, epoch) ∈ w.led → (b, epoch) ∈ w.led → a = b := by
  exact Runs.exists_of_view World.led (by decide +kernel) fun w hw hled =>
    ⟨hled, (led_unique (by decide) hw).1⟩

end RandallFlare
