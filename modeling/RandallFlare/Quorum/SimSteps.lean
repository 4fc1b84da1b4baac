import RandallFlare.Quorum.Sim

/-!
# Every operation is backed by abstract steps

For each operation of an instance: the abstract steps that go with it, and what backs the messages
it sends.  `Simulated` is the statement proved for each of them; `ActsSim` follows the driver
through the list of actions, since what a snapshot contains depends on the entries applied before.
-/

namespace RandallFlare

open EpochLog Raft List

section

variable (group : List PublicId) (g : Ghost) (id : PublicId) (r : Raft)

/-- What backs an action that leaves the state machine alone. -/
def QuietSim : Action (List Entry) → Prop
  | .send peer msg => PacketSim group g id peer msg
  | .needSnapshot _ => r.isLeader
  | .apply _ => False
  | .applySnapshot _ _ => False
  | _ => True

/-- What backs a list of actions that takes the state machine from the second list of entries to
`final`; a snapshot is asked for only when the state machine is already there. -/
def ActsSim (final : List Entry) : List Entry → List (Action (List Entry)) → Prop
  | m, [] => m = final
  | m, .apply e :: as => ActsSim final (m ++ [e]) as
  | m, .applySnapshot _ data :: as => m <+: data ∧ ActsSim final data as
  | m, a :: as => QuietSim group g id r a ∧ ((∃ p, a = .needSnapshot p) → m = final) ∧
      ActsSim final m as

/-- The instance `r` of member `id` becomes `out.1` and asks for the actions `out.2`, backed by
abstract steps of `id`. -/
def Simulated (out : Raft × List (Action (List Entry))) : Prop :=
  ∃ g', GhostMoves group id g g' ∧ GhostInv group g' ∧ RaftSim group g' id out.1 ∧
    ActsSim group g' id out.1 ((g'.log id).take out.1.applied) ((g.log id).take r.applied) out.2

end

variable {group : List PublicId} {g g' : Ghost} {id : PublicId} {r : Raft}

variable {final m : List Entry} {q as : List (Action (List Entry))} {a : Action (List Entry)}
  {r' : Raft} {e : ℕ} {D : Type} {next matched : List (PublicId × ℕ)} {sender : PublicId}
  {epoch lastEpoch lastSeq : ℕ}

theorem actsSim_quiet_append (hq : ∀ a ∈ q, QuietSim group g id r a)
    (hm : m = final ∨ ∀ p, Action.needSnapshot p ∉ q) (h : ActsSim group g id r final m as) :
    ActsSim group g id r final m (q ++ as) := by
  induction q with
  | nil => exact h
  | cons a q ih =>
    have ha := hq a mem_cons_self
    have hrest := ih (fun b hb => hq b (mem_cons_of_mem a hb))
      (hm.imp_right fun hn p hp => hn p (mem_cons_of_mem a hp))
    have hsnap : (∃ p, a = .needSnapshot p) → m = final := by
      rintro ⟨p, rfl⟩
      exact hm.resolve_right fun hn => hn p mem_cons_self
    cases a with
    | apply e => exact ha.elim
    | applySnapshot n data => exact ha.elim
    | _ => exact ⟨ha, hsnap, hrest⟩

theorem actsSim_quiet (hq : ∀ a ∈ q, QuietSim group g id r a) : ActsSim group g id r m m q := by
  have h : ActsSim group g id r m m [] := rfl
  simpa using actsSim_quiet_append hq (.inl rfl) h

theorem actsSim_apply_append {es : List Entry} (h : ActsSim group g id r final (m ++ es) as) :
    ActsSim group g id r final m (es.map .apply ++ as) := by
  induction es generalizing m with
  | nil => simpa using h
  | cons e es ih => exact ih (by simpa using h)

theorem quietSim_of_silent (h : a = .persistMeta ∨ a = .lostLeadership) :
    QuietSim group g id r a ∧ ∀ p, a ≠ .needSnapshot p := by
  rcases h with rfl | rfl <;> exact ⟨trivial, fun p hp => by cases hp⟩

theorem QuietSim.mono (hle : Le g g')
    (ha : ∀ p, a ≠ .needSnapshot p) (h : QuietSim group g id r a) : QuietSim group g' id r' a := by
  cases a with
  | send peer msg => exact PacketSim.mono hle h
  | needSnapshot p => exact absurd rfl (ha p)
  | _ => exact h

theorem Simulated.after {r₁ : Raft} {out : Raft × List (Action (List Entry))}
    (hmoves : GhostMoves group id g g') (hg' : GhostInv group g')
    (hm : (g'.log id).take r₁.applied = (g.log id).take r.applied)
    (hq : ∀ a ∈ q, QuietSim group g' id r₁ a ∧ ∀ p, a ≠ .needSnapshot p)
    (h : Simulated group g' id r₁ out) : Simulated group g id r (out.1, q ++ out.2) := by
  obtain ⟨g₂, hmoves₂, hinv, hsim, hacts⟩ := h
  rw [hm] at hacts
  have hle := (Moves.le_inv_frame hmoves₂ hg'.inv).1
  exact ⟨g₂, hmoves.trans hmoves₂, hinv, hsim, actsSim_quiet_append
    (fun a ha => (hq a ha).1.mono hle (hq a ha).2)
    (.inr fun p hp => (hq _ hp).2 p rfl) hacts⟩

theorem RaftSim.simulated (hg : GhostInv group g)
    (h : RaftSim group g id r') (happ : r'.applied = r.applied)
    (hq : ∀ a ∈ q, QuietSim group g id r' a) : Simulated group g id r (r', q) :=
  ⟨g, .refl, hg, h, by rw [happ]; exact actsSim_quiet hq⟩

theorem RaftSim.simulated_nil (hg : GhostInv group g) (h : RaftSim group g id r) :
    Simulated group g id r (r, []) :=
  h.simulated hg rfl fun a ha => by cases ha

/-! ### Leading -/

section

variable (h : Backed group g id r)

include h

theorem Backed.mem_leader (hr : r.role = .leader next matched) : LeaderSim g id r next matched := by
  have := h.role
  rw [hr] at this
  exact this

theorem Backed.quiet_replicateAll (ha : a ∈ r.replicateAll) : QuietSim group g id r a := by
  unfold replicateAll at ha
  split at ha
  case h_2 => cases ha
  case h_1 next matched hr =>
    have hl := h.mem_leader hr
    obtain ⟨⟨peer, n⟩, hp, rfl⟩ := mem_map.1 ha
    obtain ⟨hn₁, hn₂⟩ := hl.next_le _ hp
    dsimp only at hn₁ hn₂ ⊢
    split_ifs with hb
    · exact isLeader_iff.2 ⟨next, matched, hr⟩
    · refine ⟨by rw [← h.epoch, hl.elected]; exact Option.some_ne_none _, g.log id, ?_, by omega,
        h.views.filter_log (by omega), ?_, h.commit_le, by rw [← h.epoch]; exact h.settled⟩
      · rw [← h.epoch, ← hl.lead]
      · rw [h.views.epochAt (by omega) (by omega)]
        rfl

/-- The snapshot a leader ships is a settled beginning of its log. -/
theorem Backed.snapshot (hl : r.isLeader) (receiver : PublicId) :
    PacketSim group g id receiver (.installSnapshot r.epoch r.snapshotPoint.1 r.snapshotPoint.2
      ((g.log id).take r.applied)) := by
  obtain ⟨next, matched, hr⟩ := isLeader_iff.1 hl
  have hlead := h.mem_leader hr
  have happ := h.applied_eq
  have hbase := h.base_le
  have hcommit := h.commit_le
  rw [h.views.snapshotPoint (by omega) (by omega)]
  refine ⟨by rw [← h.epoch, hlead.elected]; exact Option.some_ne_none _, ?_, ?_, rfl, ?_⟩
  · rw [← h.epoch, ← hlead.lead]
    exact take_prefix _ _
  · rw [length_take]
    exact min_eq_left (by omega)
  · rw [← h.epoch, happ]
    exact h.settled

theorem Backed.majority_eq : r.majority = group.length / 2 + 1 := by
  unfold majority
  rw [h.group_perm.length_eq]

end

/-- A candidate that a majority voted for is the first to win its epoch. -/
theorem CandidateSim.elected_eq_none (hnd : group.Nodup) (hg : GhostInv group g)
    {votes : List PublicId} (h : CandidateSim group g id votes)
    (hQ : Majority.Quorum group votes.toFinset) : g.elected (g.epoch id) = none := by
  by_contra hne
  obtain ⟨c, hc⟩ := Option.ne_none_iff_exists'.1 hne
  obtain ⟨R, hR, hall⟩ := hg.inv.elected_quorum _ c hc
  obtain ⟨v, hvQ, hvR⟩ := hQ.meet hnd hR
  obtain ⟨L, hL⟩ := h.voted v (mem_toFinset.1 hvQ)
  obtain ⟨K, hK, -⟩ := hall v hvR
  obtain rfl := hg.inv.vote_unique v _ id c L K hL hK
  exact h.notElected hc

/-- Abstract steps that change the log of one leader, to one that is numbered. -/
theorem GhostInv.of_lead (hg : GhostInv group g) (hmoves : GhostMoves group id g g')
    (hlead : ∀ d, d ≠ e → g'.lead d = g.lead d) (hnum : Numbered (g'.lead e)) :
    GhostInv group g' := by
  refine ⟨(Moves.le_inv_frame hmoves hg.inv).2.1, fun d => ?_⟩
  by_cases hd : d = e
  · exact hd ▸ hnum
  · rw [hlead d hd]
    exact hg.numbered d

theorem upToDate_refl (L : List Entry) : UpToDate Entry.epoch L L := .inr ⟨rfl, le_rfl⟩

/-! ### Learning of an epoch -/

theorem ghostInv_bump (id : PublicId) (hg : GhostInv group g) (he : g.epoch id ≤ e) :
    GhostInv group (g.bump id e) := ⟨inv_bump hg.inv he, hg.numbered⟩

theorem moves_bump (he : g.epoch id ≤ e) : GhostMoves group id g (g.bump id e) :=
  .single (.bump g e he)

section

variable (hg : GhostInv group g) (h : RaftSim group g id r)

include hg h

theorem RaftSim.bump {votedFor leader : Option PublicId} (he : r.epoch ≤ e)
    (hv : r.epoch = e → ∀ c, r.votedFor = some c → votedFor = some c) :
    RaftSim group (g.bump id e) id
      { r with epoch := e, votedFor := votedFor, leader := leader, role := .follower } :=
  { h with
    epoch := by simp [State.bump]
    views := h.views.congr rfl rfl rfl
    settled := by
      have hle := le_bump g (v := id) (e := e) (by rw [h.epoch]; exact he)
      exact h.settled.mono hle (hle.epoch id)
    voted := fun c L hmem => by
      have hmem' : (id, e, c, L) ∈ g.votes := by simpa [State.bump] using hmem
      have heq : r.epoch = e := le_antisymm he (h.epoch ▸ hg.inv.vote_le _ _ _ _ hmem')
      exact hv heq c (h.voted c L (by rw [h.epoch, heq]; exact hmem'))
    role := trivial
    commit_max := fun next matched hr => by cases hr }

theorem RaftSim.becomeFollower (epoch : ℕ) :
    RaftSim group (g.bump id (max r.epoch epoch)) id (r.becomeFollower (D := D) epoch).1 := by
  rw [becomeFollower_fst]
  refine h.bump hg (le_max_left _ _) fun heq c hc => ?_
  rw [if_neg (by omega), hc]

theorem RaftSim.follow (sender : PublicId) (epoch : ℕ) :
    RaftSim group (g.bump id (max r.epoch epoch)) id (r.follow (D := D) sender epoch).1 := by
  rw [follow_fst]
  refine h.bump hg (le_max_left _ _) fun heq c hc => ?_
  rw [if_neg (by omega), hc]
  rfl

theorem RaftSim.simulated_becomeFollower
    (epoch : ℕ) : Simulated group g id r (r.becomeFollower epoch) := by
  have he : g.epoch id ≤ max r.epoch epoch := by rw [h.epoch]; exact le_max_left _ _
  refine ⟨_, moves_bump he, ghostInv_bump id hg he, h.becomeFollower hg epoch, ?_⟩
  have happ : (r.becomeFollower (D := List Entry) epoch).1.applied = r.applied := by
    rw [becomeFollower_fst]
  rw [happ]
  exact actsSim_quiet fun a ha => (quietSim_of_silent (mem_becomeFollower_snd ha)).1

/-! ### Elections -/

/-- **Winning an election**: the abstract election and the new leader's own acknowledgement. -/
theorem RaftSim.simulated_tryWin (hnd : group.Nodup) : Simulated group g id r r.tryWin := by
  unfold tryWin
  split
  case h_2 => exact h.simulated_nil hg
  case h_1 votes hr =>
    split_ifs with hlen
    · exact h.simulated_nil hg
    have hc : CandidateSim group g id votes := by
      have := h.role
      rwa [hr] at this
    have hQ : Majority.Quorum group votes.toFinset :=
      Majority.Quorum.of_list _ hc.nodup hc.mem (by rw [← h.majority_eq]; omega)
    have hnone := hc.elected_eq_none hnd hg hQ
    have helect : GhostStep group id g (g.elect id) := .elect g _ hQ hnone hc.stood
      fun v hv => hc.voted v (mem_toFinset.1 hv)
    have hlead : (g.elect id).lead (g.epoch id) = g.log id := by simp [State.elect]
    have hack : GhostStep group id (g.elect id) ((g.elect id).ack id (g.log id).length) := by
      refine .ack _ _ ?_ ?_ ?_
      · simp [State.elect]
      · exact (congrArg length hlead).ge
      · show ((g.elect id).lead (g.epoch id)).take _ <+: g.log id
        rw [hlead, take_length]
    have hmoves : GhostMoves group id g ((g.elect id).ack id (g.log id).length) :=
      (Relation.ReflTransGen.single helect).tail hack
    obtain ⟨hle, hinv, -⟩ := Moves.le_inv_frame hmoves hg.inv
    have hgi : GhostInv group ((g.elect id).ack id (g.log id).length) := by
      refine hg.of_lead hmoves (fun d hd => ?_) (hlead.symm ▸ h.views.numbered)
      simp [State.ack, State.elect, Function.update_of_ne hd]
    have hlast := h.views.last
    have hsim : RaftSim group ((g.elect id).ack id (g.log id).length) id { r with
        role := .leader (r.others.map fun p => (p, r.last.2 + 1)) (r.others.map fun p => (p, 0)) } :=
      { h with
        views := h.views.congr rfl rfl rfl
        settled := h.settled.mono hle le_rfl
        role :=
          { elected := by simp [State.ack, State.elect]
            lead := hlead.symm
            next_keys := by rw [map_map]; exact map_id _
            matched_keys := by rw [map_map]; exact map_id _
            next_le := by
              intro p hp
              obtain ⟨q, -, rfl⟩ := mem_map.1 hp
              rw [hlast]
              exact ⟨by simp, le_rfl⟩
            matched_acked := by
              intro p hp
              obtain ⟨q, -, rfl⟩ := mem_map.1 hp
              exact .inl rfl
            acked := Set.mem_insert _ _ }
        commit_max := by
          -- the log a leader starts with holds earlier epochs only
          intro next matched _ n e _ _ hn
          have hstart : ((g.elect id).ack id (g.log id).length).start (g.epoch id) = g.log id := by
            simp [State.ack, State.elect]
          have := hinv.start_lt (g.epoch id) e (by rw [hstart]; exact mem_of_getElem? hn)
          exact this.ne }
    refine ⟨_, hmoves, hgi, hsim, actsSim_quiet fun a ha => ?_⟩
    rcases mem_cons.1 ha with rfl | ha
    · trivial
    · exact hsim.quiet_replicateAll ha

/-- **The election timeout**: the abstract node moves on, stands and votes for itself. -/
theorem RaftSim.simulated_tickElection (hnd : group.Nodup) (hid : id ∈ group) :
    Simulated group g id r r.tickElection := by
  unfold tickElection
  split_ifs with hleader
  · exact h.simulated_nil hg
  have he : g.epoch id ≤ r.epoch + 1 := by rw [h.epoch]; omega
  -- nobody stood or voted as `id` in the epoch it now enters
  have hstand : GhostStep group id (g.bump id (r.epoch + 1))
      ((g.bump id (r.epoch + 1)).stand id) := by
    refine .stand _ fun L hL => ?_
    have := hg.inv.stood_le id (r.epoch + 1) L (by simpa [State.bump] using hL)
    rw [h.epoch] at this
    omega
  have hvote : GhostStep group id ((g.bump id (r.epoch + 1)).stand id)
      (((g.bump id (r.epoch + 1)).stand id).vote id id) := by
    refine .vote _ id (fun d L hL => ?_) ⟨g.log id, Set.mem_insert _ _, upToDate_refl _⟩
    have := hg.inv.vote_le id (r.epoch + 1) d L (by simpa [State.bump, State.stand] using hL)
    rw [h.epoch] at this
    omega
  set g' := ((g.bump id (r.epoch + 1)).stand id).vote id id with hg'
  have hmoves : GhostMoves group id g g' := ((moves_bump he).tail hstand).tail hvote
  obtain ⟨hle, hinv, -⟩ := Moves.le_inv_frame hmoves hg.inv
  have hgi : GhostInv group g' := ⟨hinv, hg.numbered⟩
  have hepoch : g'.epoch id = r.epoch + 1 := by simp [hg', State.vote, State.stand, State.bump]
  have hstood : (id, r.epoch + 1, g.log id) ∈ g'.stood := by
    simp [hg', State.vote, State.stand, State.bump]
  have hvoted : (id, r.epoch + 1, id, g.log id) ∈ g'.votes := by
    simp [hg', State.vote, State.stand, State.bump]
  have hsim : RaftSim group g' id { r with
      epoch := r.epoch + 1
      votedFor := some r.me
      leader := none
      role := .candidate [r.me] } :=
    { h with
      epoch := hepoch
      views := h.views.congr rfl rfl rfl
      settled := h.settled.mono hle (hle.epoch id)
      voted := by
        intro c L hL
        rw [hepoch] at hL
        rw [← hinv.vote_unique id _ id c _ L hvoted hL, h.me]
      role :=
        { stood := by rw [hepoch]; exact hstood
          nodup := nodup_singleton _
          mem := by simpa [h.me] using hid
          voted := by
            intro v hv
            obtain rfl : v = id := by simpa [h.me] using hv
            exact ⟨_, by rw [hepoch]; exact hvoted⟩
          notElected := by
            intro hel
            rw [hepoch] at hel
            have := hg.inv.elected_le (r.epoch + 1) id hel
            rw [h.epoch] at this
            omega }
      commit_max := fun next matched hr => by cases hr }
  refine Simulated.after (q := .persistMeta :: _) hmoves hgi rfl (fun a ha => ?_)
    (hsim.simulated_tryWin hgi hnd)
  rcases mem_cons.1 ha with rfl | ha
  · exact ⟨trivial, fun p hp => by cases hp⟩
  · obtain ⟨p, -, rfl⟩ := mem_map.1 ha
    refine ⟨⟨g.log id, hstood, ?_⟩, fun p hp => by cases hp⟩
    rw [hsim.views.last]
    exact ⟨rfl, rfl⟩

theorem RaftSim.simulated_handleVoteReq_of_le (hid : id ∈ group)
    (hmsg : PacketSim group g sender id (.voteReq epoch lastEpoch lastSeq)) (he : epoch ≤ r.epoch) :
    Simulated group g id r (r.handleVoteReq sender epoch lastEpoch lastSeq) := by
  unfold handleVoteReq
  simp only [if_neg (not_lt.2 he), nil_append, h.views.last]
  by_cases hgr : epoch = r.epoch ∧
      (lastEp Entry.epoch (g.log id) < lastEpoch ∨
        lastEp Entry.epoch (g.log id) = lastEpoch ∧ (g.log id).length ≤ lastSeq) ∧
      (r.votedFor = none ∨ r.votedFor = some sender)
  · obtain ⟨rfl, hup, hfree⟩ := hgr
    obtain ⟨L, hL, rfl, rfl⟩ := hmsg
    have hvote : GhostStep group id g (g.vote id sender) := by
      refine .vote _ sender (fun d K hK => ?_) ⟨L, by rw [h.epoch]; exact hL, hup⟩
      have hd := h.voted d K hK
      rcases hfree with hnone | hsome
      · rw [hnone] at hd; cases hd
      · rw [hsome] at hd; exact (Option.some.inj hd).symm
    have hmoves : GhostMoves group id g (g.vote id sender) := .single hvote
    obtain ⟨hle, hinv, -⟩ := Moves.le_inv_frame hmoves hg.inv
    have hvoted : (id, r.epoch, sender, g.log id) ∈ (g.vote id sender).votes := by
      rw [← h.epoch]; exact Set.mem_insert _ _
    have hsim : RaftSim group (g.vote id sender) id { r with votedFor := some sender } :=
      { h with
        views := h.views.congr rfl rfl rfl
        settled := h.settled.mono hle le_rfl
        voted := fun c K hK => by
          rw [show (g.vote id sender).epoch id = r.epoch from h.epoch] at hK
          rw [hinv.vote_unique id _ sender c _ K hvoted hK]
        role := by
          have hrole := h.role
          cases hr : r.role with
          | follower => trivial
          | candidate votes =>
            rw [hr] at hrole
            exact ⟨hrole.stood, hrole.nodup, hrole.mem, fun v hv =>
              (hrole.voted v hv).imp fun K hK => hle.votes hK, hrole.notElected⟩
          | leader next matched =>
            rw [hr] at hrole
            exact { hrole with } }
    have hresp : QuietSim group (g.vote id sender) id { r with votedFor := some sender }
        (.send sender (.voteResp r.epoch true)) := fun _ => ⟨hid, g.log id, hvoted⟩
    refine ⟨_, hmoves, ⟨hinv, hg.numbered⟩, ?_⟩
    rcases hfree with hnone | hsome
    · simp only [hup, hnone, true_or, and_self, decide_true, if_true]
      exact ⟨hsim, actsSim_quiet (by simpa using ⟨trivial, hresp⟩)⟩
    · have hself : { r with votedFor := some sender } = r := by rw [← hsome]
      rw [hself] at hsim hresp
      simp only [hup, hsome, or_true, and_self, decide_true, reduceCtorEq, and_false, if_false]
      exact ⟨hsim, actsSim_quiet (by simpa using hresp)⟩
  · simp only [hgr, decide_false, Bool.false_eq_true, false_and, if_false]
    exact h.simulated hg rfl (by simp [QuietSim, PacketSim])

/-- **A vote request**: granting it is an abstract vote. -/
theorem RaftSim.simulated_handleVoteReq (hid : id ∈ group)
    (hmsg : PacketSim group g sender id (.voteReq epoch lastEpoch lastSeq)) :
    Simulated group g id r (r.handleVoteReq sender epoch lastEpoch lastSeq) := by
  rcases lt_or_ge r.epoch epoch with hlt | hle
  · have he : g.epoch id ≤ max r.epoch epoch := by rw [h.epoch]; exact le_max_left _ _
    have hbump := ghostInv_bump id hg he
    rw [handleVoteReq_of_lt r sender hlt]
    refine Simulated.after (moves_bump he) hbump ?_
      (fun a ha => quietSim_of_silent (mem_becomeFollower_snd ha))
      ((h.becomeFollower hg epoch).simulated_handleVoteReq_of_le hbump hid
        (hmsg.mono (le_bump g he)) ?_)
    · rw [becomeFollower_fst]
      rfl
    · rw [becomeFollower_fst]
      exact le_max_right _ _
  · exact h.simulated_handleVoteReq_of_le hg hid hmsg hle

/-- **A vote**: counted once for each voter. -/
theorem RaftSim.simulated_handleVoteResp (hnd : group.Nodup) {granted : Bool}
    (hmsg : PacketSim group g sender id (.voteResp epoch granted)) :
    Simulated group g id r (r.handleVoteResp sender epoch granted) := by
  unfold handleVoteResp
  split_ifs with hlt hstale
  · exact h.simulated_becomeFollower hg epoch
  · exact h.simulated_nil hg
  push Not at hstale
  obtain ⟨rfl, hgranted⟩ := hstale
  obtain ⟨hmem, L, hL⟩ := hmsg hgranted
  split
  case h_2 => exact h.simulated_tryWin hg hnd
  case h_1 votes hr =>
    have hc : CandidateSim group g id votes := by
      have := h.role
      rwa [hr] at this
    have hsim : RaftSim group g id { r with
        role := .candidate (if sender ∈ votes then votes else votes ++ [sender]) } :=
      { h with
        views := h.views.congr rfl rfl rfl
        role := by
          split_ifs with hin
          · exact hc
          · refine { hc with nodup := ?_, mem := ?_, voted := ?_ }
            · exact hc.nodup.append (nodup_singleton _) (by simpa using hin)
            · intro v hv
              rcases mem_append.1 hv with hv | hv
              · exact hc.mem v hv
              · exact mem_singleton.1 hv ▸ hmem
            · intro v hv
              rcases mem_append.1 hv with hv | hv
              · exact hc.voted v hv
              · exact ⟨L, by rw [mem_singleton.1 hv, h.epoch]; exact hL⟩
        commit_max := fun next matched hr' => by cases hr' }
    exact hsim.simulated_tryWin hg hnd

end

/-! ### Committing -/

section

variable (h : Backed group g id r)

include h

theorem Backed.others_nodup (hnd : group.Nodup) : r.others.Nodup :=
  (h.group_perm.symm.nodup hnd).filter _

theorem Backed.mem_others {p : PublicId} (hp : p ∈ r.others) : p ∈ group ∧ p ≠ id := by
  obtain ⟨hmem, hne⟩ := mem_filter.1 hp
  exact ⟨h.group_perm.mem_iff.1 hmem, by simpa [h.me] using hne⟩

/-- A quorate position of the leader's own epoch is chosen. -/
theorem Backed.chosen (hnd : group.Nodup) (hid : id ∈ group)
    (hr : r.role = .leader next matched) {n : ℕ} (hn : 0 < n) (hq : r.Quorate matched n)
    {e : Entry} (he : (g.log id)[n - 1]? = some e) (hep : e.epoch = g.epoch id) :
    Chosen Entry.epoch (Majority.Quorum group) g (g.epoch id) ((g.log id).take n) := by
  have hl := h.mem_leader hr
  have hlen : n - 1 < (g.log id).length := (List.getElem?_eq_some_iff.1 he).1
  refine ⟨hl.lead ▸ take_prefix _ _, ⟨(g.log id).take (n - 1), e, ?_, hep⟩, ?_⟩
  · rw [show n = n - 1 + 1 by omega, take_add_one, Nat.add_sub_cancel, he]
    rfl
  -- the members counted: the leader itself and those whose acknowledgement reaches `n`
  have hkeys : ((matched.filter fun p => n ≤ p.2).map Prod.fst).Sublist r.others := by
    rw [← hl.matched_keys]
    exact Sublist.map _ filter_sublist
  refine ⟨_, Majority.Quorum.of_list (id :: (matched.filter fun p => n ≤ p.2).map Prod.fst)
    ?_ ?_ ?_, fun v hv => ?_⟩
  · exact nodup_cons.2 ⟨fun hin => (h.mem_others (hkeys.subset hin)).2 rfl,
      hkeys.nodup (h.others_nodup hnd)⟩
  · intro v hv
    rcases mem_cons.1 hv with rfl | hv
    · exact hid
    · exact (h.mem_others (hkeys.subset hv)).1
  · unfold Raft.Quorate at hq
    rw [h.majority_eq, countP_eq_length_filter] at hq
    simpa [Nat.add_comm] using hq
  · rw [length_take, min_eq_left (by omega)]
    rcases mem_cons.1 (mem_toFinset.1 hv) with rfl | hv
    · exact ⟨_, hl.acked, by omega⟩
    · obtain ⟨p, hp, rfl⟩ := mem_map.1 hv
      obtain ⟨hp, hpn⟩ := mem_filter.1 hp
      have hpn : n ≤ p.2 := by simpa using hpn
      rcases hl.matched_acked p hp with hzero | ⟨m, hm, hack⟩
      · omega
      · exact ⟨m, hack, hpn.trans hm⟩

/-- **Advancing the commit index**: what becomes committed is chosen. -/
theorem Backed.simulated_advanceCommit (hnd : group.Nodup) (hid : id ∈ group)
    (hg : GhostInv group g) (hr : r.isLeader) : Simulated group g id r r.advanceCommit := by
  have happ := h.applied_eq
  have hbase := h.base_le
  unfold advanceCommit
  split
  case h_2 hne =>
    obtain ⟨next, matched, hr⟩ := isLeader_iff.1 hr
    exact absurd hr (hne next matched)
  rename_i next matched hr
  dsimp only
  generalize hc : r.commitScan matched (r.last.2 - r.commit) (r.commit + 1) r.commit = c
  rw [h.views.last] at hc
  dsimp only at hc
  -- no quorate position of the own epoch is left behind
  have hmax : ∀ n e, c < n → r.Quorate matched n → (g.log id)[n - 1]? = some e →
      e.epoch ≠ g.epoch id := by
    intro n e hn hq he hep
    have hge : r.commit ≤ c := hc ▸ le_commitScan r matched _ _ _ (by omega)
    have hlen := (List.getElem?_eq_some_iff.1 he).1
    have := le_commitScan_of_quorate r matched ((g.log id).length - r.commit) (r.commit + 1)
      r.commit (m := n) (by omega) (by omega) hq
      (by rw [h.views.entry_of_lt (by omega), he, Option.map_some, hep, h.epoch])
    omega
  split_ifs with hlt
  · obtain ⟨hq, he⟩ : r.Quorate matched c ∧ (r.entry c).map Entry.epoch = some r.epoch := by
      rcases commitScan_cases r matched ((g.log id).length - r.commit) (r.commit + 1) r.commit
        with heq | ⟨-, hrest⟩
      · omega
      · rwa [hc] at hrest
    rw [h.views.entry_of_lt (by omega)] at he
    obtain ⟨e, he, hep⟩ := Option.map_eq_some_iff.1 he
    have hcl : c ≤ (g.log id).length := by
      have := (List.getElem?_eq_some_iff.1 he).1
      omega
    have hchosen := h.chosen hnd hid hr (by omega) hq he (hep.trans h.epoch.symm)
    have hsim : RaftSim group g id { r with commit := c, applied := max r.applied c } :=
      { h with
        views := h.views.congr rfl rfl rfl
        base_le := by simp only; omega
        applied_eq := by simp only; omega
        commit_le := hcl
        settled := .inr ⟨_, _, le_rfl, hchosen, prefix_refl _⟩
        role := by
          have hl := h.mem_leader hr
          simp only [hr]
          exact { hl with }
        commit_max := by
          intro next' matched' hr' n e' hn hq' he'
          obtain ⟨-, rfl⟩ : next = next' ∧ matched = matched' := by simpa [hr] using hr'
          exact hmax n e' hn hq' he' }
    have hviews : Views { r with commit := c } (g.log id) := h.views.congr rfl rfl rfl
    refine ⟨g, .refl, hg, hsim, ?_⟩
    unfold applyCommitted
    rw [hviews.applyLoop _ _ (by simp only; omega)]
    refine actsSim_apply_append ?_
    rw [show (g.log id).take r.applied ++ ((g.log id).drop r.applied).take (c - r.applied) =
        (g.log id).take (max r.applied c) by
      rw [max_eq_right (by omega), ← take_add]
      congr 1
      omega]
    exact actsSim_quiet fun a ha => hsim.quiet_replicateAll ha
  · have hcc : c = r.commit := by
      have := hc ▸ le_commitScan r matched ((g.log id).length - r.commit) (r.commit + 1)
        r.commit (by omega)
      omega
    rw [applyCommitted_of_eq happ]
    refine RaftSim.simulated hg { h with commit_max := ?_ } rfl (fun a ha => by cases ha)
    intro next' matched' hr' n e' hn hq' he'
    obtain ⟨-, rfl⟩ : next = next' ∧ matched = matched' := by simpa [hr] using hr'
    exact hmax n e' (by omega) hq' he'

theorem Backed.others_eq_nil (hid : id ∈ group) (hone : r.majority ≤ 1) : r.others = [] := by
  have hlen : r.group.length ≤ 1 := by unfold majority at hone; omega
  have hmem : id ∈ r.group := h.group_perm.mem_iff.2 hid
  obtain ⟨x, hx⟩ : ∃ x, r.group = [x] := length_eq_one_iff.1 (le_antisymm hlen
    (length_pos_of_mem hmem))
  rw [hx, mem_singleton] at hmem
  simp [others, hx, h.me, hmem]

/-- What backs a leader once it has appended an entry of its own: the abstract extension and the
leader's acknowledgement of it. -/
theorem Backed.extend (hg : GhostInv group g) (hr : r.isLeader)
    {e : Entry} (hep : e.epoch = r.epoch) (hseq : e.seq = (g.log id).length + 1) :
    ∃ g', GhostMoves group id g g' ∧ GhostInv group g' ∧ g'.log id = g.log id ++ [e] ∧
      g'.epoch id = g.epoch id ∧ Backed group g' id { r with log := r.log ++ [e] } := by
  obtain ⟨next, matched, hr⟩ := isLeader_iff.1 hr
  have hl := h.mem_leader hr
  have hlog : ((g.extend id e).ack id ((g.log id).length + 1)).log id = g.log id ++ [e] := by
    simp [State.ack, State.extend]
  have hlead : (g.extend id e).lead (g.epoch id) = g.log id ++ [e] := by simp [State.extend]
  have hext : GhostStep group id g (g.extend id e) :=
    .extend g e hl.elected hl.lead (hep.trans h.epoch.symm)
  have hack : GhostStep group id (g.extend id e)
      ((g.extend id e).ack id ((g.log id).length + 1)) := by
    refine .ack _ _ ?_ ?_ ?_
    · show g.elected (g.epoch id) ≠ none
      rw [hl.elected]
      exact Option.some_ne_none _
    · show _ ≤ ((g.extend id e).lead (g.epoch id)).length
      rw [hlead]
      simp
    · show ((g.extend id e).lead (g.epoch id)).take _ <+: (g.extend id e).log id
      simp [State.extend, take_of_length_le]
  have hmoves := (Relation.ReflTransGen.single hext).tail hack
  have hle := (Moves.le_inv_frame hmoves hg.inv).1
  refine ⟨_, hmoves, hg.of_lead hmoves (fun d hd => ?_)
    (hlead.symm ▸ h.views.numbered.append_singleton hseq), hlog, rfl, ?_⟩
  · simp [State.ack, State.extend, Function.update_of_ne hd]
  · have hcl := h.commit_le
    refine
      { h with
        views := by rw [hlog]; exact h.views.push hseq
        commit_le := by rw [hlog]; simp only [length_append, length_singleton]; omega
        settled := ?_
        role := ?_ }
    · rw [hlog, take_append_of_le_length h.commit_le]
      exact h.settled.mono hle le_rfl
    · simp only [hr]
      refine
        { hl with
          lead := by rw [hlog]; exact hlead.symm
          next_le := fun p hp => ?_
          matched_acked := fun p hp => ?_
          acked := by rw [hlog, length_append]; exact Set.mem_insert _ _ }
      · obtain ⟨h₁, h₂⟩ := hl.next_le p hp
        rw [hlog, length_append]
        exact ⟨h₁, by omega⟩
      · refine (hl.matched_acked p hp).imp_right ?_
        rintro ⟨m, hm, hmem⟩
        exact ⟨m, hm, hle.acks hmem⟩

end

section

variable (hg : GhostInv group g) (h : RaftSim group g id r)

include hg h

/-- **Proposing**: the leader's log grows by one entry.  Only a group of one commits it at once,
and such a group has nobody to ask for a snapshot meanwhile. -/
theorem RaftSim.simulated_propose (hnd : group.Nodup) (hid : id ∈ group) {cmd : Bytes}
    {out : ℕ × Raft × List (Action (List Entry))} (hout : r.propose cmd = .ok out) :
    Simulated group g id r out.2 := by
  unfold propose at hout
  split_ifs at hout with hr
  simp only [h.views.last, Except.ok.injEq] at hout
  subst hout
  set e : Entry := ⟨r.epoch, (g.log id).length + 1, cmd⟩ with he
  obtain ⟨g', hmoves, hg', hlog, hepoch, hback⟩ := h.toBacked.extend hg hr (e := e) rfl rfl
  obtain ⟨next, matched, hrole⟩ := isLeader_iff.1 hr
  have hl := h.mem_leader hrole
  have hcl := h.commit_le
  have happ := h.applied_eq
  have htake : (g'.log id).take r.applied = (g.log id).take r.applied := by
    rw [hlog, take_append_of_le_length (by omega)]
  by_cases hone : r.majority ≤ 1
  · have hnil : replicateAll (D := List Entry) { r with log := r.log ++ [e] } = [] := by
      have : next = [] := by
        have := hl.next_keys
        rw [h.others_eq_nil hid hone] at this
        exact map_eq_nil_iff.1 this
      simp [replicateAll, hrole, this]
    simp only [hnil, cons_append, nil_append]
    exact Simulated.after (q := [.persistLog _]) hmoves hg' htake
      (by simp [QuietSim]) (hback.simulated_advanceCommit hnd hid hg' hr)
  · have hmax : ∀ n x, r.commit < n → r.Quorate matched n → (g'.log id)[n - 1]? = some x →
        x.epoch ≠ g'.epoch id := by
      intro n x hn hq hx
      rw [hlog] at hx
      rcases lt_or_ge (n - 1) (g.log id).length with hlt | hge
      · rw [getElem?_append_left hlt] at hx
        rw [hepoch]
        exact h.commit_max next matched hrole n x hn hq hx
      · -- nobody else has acknowledged the new entry yet
        refine absurd hq fun hq => hone ?_
        have hzero : matched.countP (fun p => n ≤ p.2) = 0 := by
          rw [countP_eq_zero]
          intro p hp
          rcases hl.matched_acked p hp with hz | ⟨m, hm, hack⟩
          · simp only [decide_eq_true_eq]; omega
          · have := (hg.inv.ack_le _ _ _ hack).2.2
            rw [← hl.lead] at this
            simp only [decide_eq_true_eq]
            omega
        unfold Raft.Quorate at hq
        rwa [hzero] at hq
    have hsim : RaftSim group g' id { r with log := r.log ++ [e] } :=
      { hback with
        commit_max := fun next' matched' hr' => by
          obtain ⟨-, rfl⟩ : next = next' ∧ matched = matched' := by simpa [hrole] using hr'
          exact hmax }
    rw [advanceCommit_eq_self (r := { r with log := r.log ++ [e] }) happ
        (fun next' matched' hr' n hn hq => by
      obtain ⟨-, rfl⟩ : next = next' ∧ matched = matched' := by simpa [hrole] using hr'
      have hb := h.base_le
      rw [hback.views.entry_of_lt (by simp only at hn ⊢; omega)]
      intro heq
      obtain ⟨x, hx, hxe⟩ := Option.map_eq_some_iff.1 heq
      exact hmax n x hn hq hx (hxe.trans hback.epoch.symm)), append_nil]
    refine ⟨g', hmoves, hg', hsim, ?_⟩
    rw [← htake]
    refine actsSim_quiet fun a ha => ?_
    rcases mem_cons.1 ha with rfl | ha
    · trivial
    · exact hback.quiet_replicateAll ha

/-- **An answer to an append**: an acknowledgement counts, a refusal backs the peer up. -/
theorem RaftSim.simulated_handleAppendResp (hnd : group.Nodup) (hid : id ∈ group) {matchSeq : ℕ}
    {ok : Bool} (hmsg : PacketSim group g sender id (.appendResp epoch matchSeq ok)) :
    Simulated group g id r (r.handleAppendResp sender epoch matchSeq ok) := by
  unfold handleAppendResp
  split_ifs with hlt hne hok
  · exact h.simulated_becomeFollower hg epoch
  · exact h.simulated_nil hg
  all_goals
    obtain rfl : epoch = r.epoch := not_not.1 hne
    split
    case h_2 => exact h.simulated_nil hg
    rename_i next matched hr
    have hl := h.mem_leader hr
    have hback : ∀ next', next'.map Prod.fst = next.map Prod.fst →
        (∀ p ∈ next', 1 ≤ p.2 ∧ p.2 ≤ (g.log id).length + 1) →
        ∀ matched', matched'.map Prod.fst = matched.map Prod.fst →
        (∀ p ∈ matched', p.2 = 0 ∨ ∃ m, p.2 ≤ m ∧ (p.1, g.epoch id, m) ∈ g.acks) →
        Backed group g id { r with role := .leader next' matched' } :=
      fun next' hk hn matched' hk' hm =>
        { h with
          views := h.views.congr rfl rfl rfl
          role := { hl with
            next_keys := hk.trans hl.next_keys
            matched_keys := hk'.trans hl.matched_keys
            next_le := hn
            matched_acked := hm } }
  · obtain ⟨m, hm, hack⟩ := hmsg hok
    rw [← h.epoch] at hack
    have hml : m ≤ (g.log id).length := by
      rw [hl.lead]
      exact (hg.inv.ack_le _ _ _ hack).2.2
    have hb := hback (updatePeer sender (fun _ => matchSeq + 1) next)
      (map_fst_updatePeer _ _ _)
      (fun p hp => by
        rcases mem_updatePeer hp with hp | ⟨n, -, rfl⟩
        · exact hl.next_le p hp
        · exact ⟨by simp, by simp only; omega⟩)
      (updatePeer sender (fun m => max m matchSeq) matched)
      (map_fst_updatePeer _ _ _)
      (fun p hp => by
        rcases mem_updatePeer hp with hp | ⟨n, hn, rfl⟩
        · exact hl.matched_acked p hp
        · -- the larger of two acknowledged positions is acknowledged
          rcases hl.matched_acked _ hn with hz | ⟨k, hk, hkack⟩
          · exact .inr ⟨m, by simp only at hz ⊢; omega, hack⟩
          · rcases le_total n matchSeq with hle | hle
            · exact .inr ⟨m, by simp only; omega, hack⟩
            · exact .inr ⟨k, by simp only at hk ⊢; omega, hkack⟩)
    exact hb.simulated_advanceCommit hnd hid hg rfl
  · have hvb := h.views.base_le
    have hb := hback (updatePeer sender (fun n =>
        if n ≤ r.baseSeq + 1 then max r.baseSeq 1
        else max (min (matchSeq + 1) (n - 1)) (r.baseSeq + 1)) next)
      (map_fst_updatePeer _ _ _)
      (fun p hp => by
        rcases mem_updatePeer hp with hp | ⟨n, hn, rfl⟩
        · exact hl.next_le p hp
        · have := hl.next_le _ hn
          split_ifs <;> omega)
      matched rfl hl.matched_acked
    have hsim : RaftSim group g id _ := { hb with
      commit_max := fun next' matched' hr' => by
        obtain ⟨-, rfl⟩ := (Role.leader.injEq _ _ _ _).mp hr'
        exact h.commit_max next matched hr }
    exact hsim.simulated hg rfl fun a ha => hsim.quiet_replicateAll ha

theorem RaftSim.simulated_heartbeat : Simulated group g id r (r, r.heartbeat) := by
  refine h.simulated hg rfl fun a ha => ?_
  unfold heartbeat at ha
  split_ifs at ha
  · exact h.quiet_replicateAll ha
  · cases ha

end

theorem RaftSim.compact (h : RaftSim group g id r) (keepTail : ℕ) :
    RaftSim group g id (r.compact keepTail).1 := by
  have hviews := h.views.compact keepTail
  obtain ⟨log, b, be, heq, hb₁, hb₂⟩ := r.compact_fst keepTail
  have happ := h.applied_eq
  have hbase := h.base_le
  rw [heq] at hviews ⊢
  exact
    { h with
      views := hviews
      base_le := by simp only; omega
      role := by
        have hrole := h.role
        cases hr : r.role with
        | follower => trivial
        | candidate votes => rw [hr] at hrole; exact hrole
        | leader next matched => rw [hr] at hrole; exact { hrole with } }

end RandallFlare
