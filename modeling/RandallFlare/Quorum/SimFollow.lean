import RandallFlare.Quorum.SimSteps

/-!
# Following a leader

A follower answers an `Append` with the position of its own last entry, whether or not the message
reached that far, and an `InstallSnapshot` empties its log even where the log goes on past the
snapshot.  Both are abstract steps only when the answer claims, and the log keeps, what the leader
of the epoch has: that is `Raft.Vouched`, a condition on the instance and the message.

* `RaftSim.simulated_handleAppend`, `RaftSim.simulated_handleInstallSnapshot`: messages that meet
  the condition are backed by abstract steps;
* `RaftSim.simulated_handle`: so is every message.
-/

namespace RandallFlare

open EpochLog Raft List Option

namespace Raft

variable {D : Type}

/-- Everything in the log is committed, or the log ends in an entry of `epoch`. -/
def TailKnown (r : Raft) (epoch : ℕ) : Prop := r.last.2 ≤ r.commit ∨ r.last.1 = epoch

instance (r : Raft) (epoch : ℕ) : Decidable (r.TailKnown epoch) :=
  inferInstanceAs (Decidable (_ ∨ _))

/-- Handling the message claims and forgets nothing that the sender's log does not warrant.

An `Append` is refused, or replaces the end of the log, or reaches as far as the log does, or the
rest of the log is known to be the sender's.  An `InstallSnapshot` that is not installed finds the
log to be the sender's; one that is finds no entry past it that it agrees with. -/
def Vouched (r : Raft) : Msg D → Prop
  | .append epoch prevSeq prevEpoch entries _ =>
      epoch < r.epoch ∨ ¬ r.prevOk prevSeq prevEpoch ∨
      (∃ e ∈ entries, r.baseSeq < e.seq ∧ (r.entry e.seq).map Entry.epoch ≠ some e.epoch) ∨
      r.last.2 ≤ prevSeq + entries.length ∨ r.TailKnown epoch
  | .installSnapshot epoch lastSeq lastEpoch _ =>
      epoch < r.epoch ∨
      if lastSeq ≤ r.applied then r.TailKnown epoch
      else ¬ (lastSeq < r.last.2 ∧ (r.entry lastSeq).map Entry.epoch = some lastEpoch)
  | _ => True

instance (r : Raft) (m : Msg D) : Decidable (r.Vouched m) := by
  cases m <;> unfold Vouched <;> infer_instance

end Raft

variable {group : List PublicId} {g g' : Ghost} {id : PublicId} {r : Raft} {m : Msg (List Entry)}

theorem GhostInv.settled_lead (hnd : group.Nodup) (hg : GhostInv group g) {e : ℕ}
    {X : List Entry} (hX : GhostSettled group g e X) (he : g.elected e ≠ none) : X <+: g.lead e :=
  hg.inv.settled_lead (fun _ _ hQ hR => hQ.meet hnd hR) hX he

theorem Backed.prefix_of_tailKnown (hnd : group.Nodup) (hg : GhostInv group g)
    (h : Backed group g id r) (hne : g.elected r.epoch ≠ none) (ht : r.TailKnown r.epoch) :
    g.log id <+: g.lead r.epoch := by
  unfold Raft.TailKnown at ht
  rw [h.views.last] at ht
  rcases ht with hcommit | hlast
  · have hset := h.settled
    rw [take_of_length_le hcommit, h.epoch] at hset
    exact hg.settled_lead hnd hset hne
  · rcases eq_nil_or_concat' (g.log id) with hnil | ⟨P, a, hPa⟩
    · rw [hnil]
      exact nil_prefix
    · have hsound := hg.inv.log_sound id P a (by rw [hPa])
      simp only [hPa, lastEp_append_singleton] at hlast
      rw [hPa, ← hlast]
      exact hsound

/-- A follower takes over `L` from the log of its epoch and acknowledges it. -/
theorem RaftSim.adoptAck {L : List Entry} (h : RaftSim group g id r) (r' : Raft)
    (hg : GhostInv group g) (hne : g.elected r.epoch ≠ none) (hL : L <+: g.lead r.epoch)
    (hkeep : ∀ P, P <+: g.log id → P <+: g.lead r.epoch → P <+: L)
    (hid : r'.me = r.me ∧ r'.group = r.group ∧ r'.epoch = r.epoch ∧ r'.votedFor = r.votedFor)
    (hrole : r'.role = .follower) (hviews : Views r' L) (hbase : r'.baseSeq ≤ r'.commit)
    (happ : r'.applied = r'.commit) (hcommit : r'.commit ≤ L.length)
    (hset : GhostSettled group g r.epoch (L.take r'.commit)) :
    ∃ g', GhostMoves group id g g' ∧ GhostInv group g' ∧ RaftSim group g' id r' ∧
      g'.log id = L ∧ (id, r.epoch, L.length) ∈ g'.acks := by
  obtain ⟨hme, hgroup, hepoch, hvoted⟩ := hid
  rw [← h.epoch] at hne hL hkeep
  have hlog : (g.adopt id L).log id = L := by simp [State.adopt]
  have hadopt : GhostStep group id g (g.adopt id L) := .adopt g L hne hL hkeep
  have hack : GhostStep group id (g.adopt id L) ((g.adopt id L).ack id L.length) := by
    refine .ack _ _ hne hL.length_le ?_
    show (g.lead (g.epoch id)).take L.length <+: _
    rw [hlog, ← prefix_iff_eq_take.1 hL]
  have hmoves := (Relation.ReflTransGen.single hadopt).tail hack
  obtain ⟨hle, hinv, -⟩ := Moves.le_inv_frame hmoves hg.inv
  refine ⟨_, hmoves, ⟨hinv, hg.numbered⟩, ?_, hlog, by rw [← h.epoch]; exact Set.mem_insert _ _⟩
  exact
    { me := hme.trans h.me
      group_perm := hgroup ▸ h.group_perm
      epoch := h.epoch.trans hepoch.symm
      views := hlog.symm ▸ hviews
      base_le := hbase
      applied_eq := happ
      commit_le := hlog.symm ▸ hcommit
      settled := by
        show GhostSettled group _ (g.epoch id) (((g.adopt id L).log id).take r'.commit)
        rw [hlog, h.epoch]
        exact hset.mono hle le_rfl
      voted := fun c K hK => hvoted.trans (h.voted c K hK)
      role := by rw [hrole]; trivial
      commit_max := fun next matched hr => by rw [hrole] at hr; cases hr }

/-! ### Appends -/

variable {sender : PublicId} {epoch prevSeq prevEpoch commit : ℕ} {M entries : List Entry}

theorem Backed.agree (id : PublicId) (hg : GhostInv group g) (hM : M <+: g.lead r.epoch)
    (P : List Entry) (a b : Entry) (ha : P ++ [a] <+: g.log id) (hb : P ++ [b] <+: M)
    (hab : a.epoch = b.epoch) : a = b := by
  have := (hg.inv.log_sound id).agree ((hg.inv.lead_sound _).anti hM) ha hb rfl hab
  simpa using this

section

variable (hnd : group.Nodup) (hg : GhostInv group g) (h : Backed group g id r)
  (hne : g.elected r.epoch ≠ none) (hM : M <+: g.lead r.epoch)

include hnd hg h hne hM

theorem Backed.base_prefix {P : List Entry} (hP : P <+: M)
    (hlen : P.length ≤ r.baseSeq) : P <+: g.log id := by
  have hset : GhostSettled group g r.epoch ((g.log id).take r.baseSeq) := by
    rw [← h.epoch]
    exact h.settled.anti (take_prefix_take_left h.base_le)
  have hbase := hg.settled_lead hnd hset hne
  have := h.views.base_le
  exact (prefix_of_prefix_length_le (hP.trans hM) hbase
    (by rw [length_take]; omega)).trans (List.take_prefix _ _)

/-- **The consistency check**: what precedes the entries sent is already there. -/
theorem Backed.prevOk_prefix (hlen : prevSeq ≤ M.length)
    (hok : r.prevOk prevSeq (lastEp Entry.epoch (M.take prevSeq))) :
    M.take prevSeq <+: g.log id := by
  by_cases hb : prevSeq ≤ r.baseSeq
  · exact h.base_prefix hnd hg hne hM (List.take_prefix _ _)
      (by rw [length_take]; omega)
  -- past the snapshot point the epoch at `prevSeq` decides
  have hat : r.epochAt prevSeq = some (lastEp Entry.epoch (M.take prevSeq)) := by
    have := of_decide_eq_true hok
    rcases this with h0 | hlt | heq
    · omega
    · omega
    · exact heq
  have hle : prevSeq ≤ (g.log id).length := by
    by_contra hgt
    rw [h.views.epochAt_of_gt (by omega)] at hat
    cases hat
  rw [h.views.epochAt (by omega) hle, some.injEq] at hat
  obtain ⟨k, rfl⟩ : ∃ k, prevSeq = k + 1 := ⟨prevSeq - 1, by omega⟩
  have hk : (g.log id)[k]? = some (g.log id)[k] := getElem?_eq_getElem (by omega)
  have hk' : M[k]? = some M[k] := getElem?_eq_getElem (by omega)
  rw [lastEp_take_succ hk, lastEp_take_succ hk'] at hat
  have heq := (hg.inv.log_sound id).agree ((hg.inv.lead_sound _).anti hM)
    (P := (g.log id).take k) (Q := M.take k) (a := (g.log id)[k]) (b := M[k])
    (by rw [take_append_getElem]; exact take_prefix _ _)
    (by rw [take_append_getElem]; exact take_prefix _ _)
    (by rw [length_take, length_take]; omega) hat
  rw [take_append_getElem, take_append_getElem] at heq
  rw [← heq]
  exact take_prefix _ _

/-- What is committed stays when the log is replaced by `M`, unless `M` was there already. -/
theorem Backed.commit_prefix (hnot : ¬ M <+: g.log id) : (g.log id).take r.commit <+: M := by
  have hset := h.settled
  rw [h.epoch] at hset
  have hlead := hg.settled_lead hnd hset hne
  rcases prefix_or_prefix_of_prefix hlead hM with hin | hout
  · exact hin
  · exact absurd (hout.trans (List.take_prefix _ _)) hnot

/-- What the log of a vouched-for message ends up as is part of the leader's log. -/
theorem Backed.vouched_prefix (hlen : prevSeq ≤ M.length) (hent : entries = M.drop prevSeq)
    (hok : r.prevOk prevSeq prevEpoch)
    (hv : r.Vouched (D := List Entry) (.append r.epoch prevSeq prevEpoch entries commit))
    (hin : M <+: g.log id) : g.log id <+: g.lead r.epoch := by
  rcases hv with hlt | hno | ⟨e, he, hb, hdiff⟩ | hle | htail
  · exact absurd hlt (lt_irrefl _)
  · exact absurd hok hno
  · -- an entry that differs cannot be there
    rw [hent] at he
    obtain ⟨i, hi⟩ := mem_iff_getElem?.1 ((drop_subset _ _) he)
    obtain ⟨T, hT⟩ := hin
    have hiL : (g.log id)[i]? = some e := by
      rw [← hT, getElem?_append_left (List.getElem?_eq_some_iff.1 hi).1]
      exact hi
    have hseq := h.views.numbered i e hiL
    rw [h.views.entry_of_lt hb, hseq, Nat.add_sub_cancel, hiL] at hdiff
    exact absurd rfl hdiff
  · rw [h.views.last, hent, length_drop] at hle
    rw [← hin.eq_of_length_le (by omega)]
    exact hM
  · exact h.prefix_of_tailKnown hnd hg hne htail

end

/-- Follow the sender of a message that is not stale, then do the rest: the message claims as much
as before. -/
theorem RaftSim.simulated_follow (hg : GhostInv group g) (h : RaftSim group g id r)
    (hle : r.epoch ≤ epoch)
    (hm : (∃ p q es c, m = .append epoch p q es c) ∨ ∃ n ne d, m = .installSnapshot epoch n ne d)
    (hmsg : PacketSim group g sender id m) (hv : r.Vouched m)
    (rest : Raft → Raft × List (Action (List Entry)))
    (hrest : ∀ g₁ r₁, GhostInv group g₁ → RaftSim group g₁ id r₁ → r₁.epoch = epoch →
      r₁.role = .follower → PacketSim group g₁ sender id m → r₁.Vouched m →
      Simulated group g₁ id r₁ (rest r₁)) :
    Simulated group g id r ((rest (r.follow (D := List Entry) sender epoch).1).1,
      (r.follow sender epoch).2 ++ (rest (r.follow (D := List Entry) sender epoch).1).2) := by
  have he : g.epoch id ≤ max r.epoch epoch := by rw [h.epoch]; exact le_max_left _ _
  have hbump := ghostInv_bump id hg he
  refine Simulated.after (moves_bump he) hbump ?_
    (fun a ha => quietSim_of_silent (mem_follow_snd ha))
    (hrest _ _ hbump (h.follow hg sender epoch) ?_ ?_ (hmsg.mono (le_bump g he)) ?_)
  all_goals rw [follow_fst]
  · rfl
  · exact max_eq_right hle
  · rcases hm with ⟨p, q, es, c, rfl⟩ | ⟨n, ne, d, rfl⟩
    · exact .inr (hv.resolve_left (not_lt.2 hle))
    · exact .inr (hv.resolve_left (not_lt.2 hle))

section

variable (hnd : group.Nodup) (hg : GhostInv group g) (h : RaftSim group g id r)
  {lastSeq lastEpoch : ℕ} {data : List Entry}

include hnd hg h

/-- **An append of the own epoch.** -/
theorem RaftSim.simulated_acceptAppend (hrole : r.role = .follower)
    (hmsg : PacketSim group g sender id (.append r.epoch prevSeq prevEpoch entries commit))
    (hv : r.Vouched (D := List Entry) (.append r.epoch prevSeq prevEpoch entries commit)) :
    Simulated group g id r (r.acceptAppend sender prevSeq prevEpoch entries commit) := by
  obtain ⟨hne, M, hM, hlen, hent, hpe, hcm, hset⟩ := hmsg
  unfold acceptAppend
  by_cases hok : r.prevOk prevSeq prevEpoch
  case neg =>
    rw [if_pos hok]
    exact h.simulated hg rfl (by simp [QuietSim, PacketSim])
  rw [if_neg (not_not.2 hok)]
  have hcl := h.commit_le
  have hbl := h.base_le
  have happ := h.applied_eq
  obtain ⟨log, L, hfold, hviews, hor⟩ := h.views.appendEntries
    ((hg.numbered _).anti hM) (show M = M.take prevSeq ++ entries by
      rw [hent, take_append_drop])
    (h.prevOk_prefix hnd hg hne hM hlen (hpe ▸ hok)) none
    (fun P hP hPb => h.base_prefix hnd hg hne hM hP hPb) (Backed.agree id hg hM)
  -- the new log extends what was sent and is part of the leader's
  have hML : M <+: L := by
    rcases hor with ⟨hin, rfl⟩ | ⟨-, rfl⟩
    · exact hin
    · exact prefix_refl _
  have hL : L <+: g.lead r.epoch := by
    rcases hor with ⟨hin, rfl⟩ | ⟨-, rfl⟩
    · exact h.vouched_prefix hnd hg hne hM hlen hent hok hv hin
    · exact hM
  have hkeep : ∀ P, P <+: g.log id → P <+: g.lead r.epoch → P <+: L := by
    intro P hP hPlead
    rcases hor with ⟨-, rfl⟩ | ⟨hnot, rfl⟩
    · exact hP
    · rcases prefix_or_prefix_of_prefix hPlead hM with hin | hout
      · exact hin
      · exact absurd (hout.trans hP) hnot
  have hold : (g.log id).take r.commit <+: L := by
    rcases hor with ⟨-, rfl⟩ | ⟨hnot, rfl⟩
    · exact take_prefix _ _
    · exact h.commit_prefix hnd hg hne hM hnot
  have hcL : r.commit ≤ L.length := by
    have := hold.length_le
    rwa [length_take, min_eq_left hcl] at this
  have hcut : L.take r.commit = (g.log id).take r.commit := by
    have := prefix_iff_eq_take.1 hold
    rw [length_take, min_eq_left hcl] at this
    exact this.symm
  have hMlen := hML.length_le
  -- both branches of the source move the commit index to the larger of the two
  have hcommitted : learnCommit { r with log := log } commit =
      (({ r with
          log := log
          commit := max r.commit commit
          applied := max r.commit commit } : Raft),
        ((L.drop r.applied).take (max r.commit commit - r.applied)).map
          (Action.apply (D := List Entry))) := by
    unfold learnCommit
    split_ifs with hlt
    · simp only [hviews.last]
      simp only at hlt
      rw [min_eq_left (by omega), max_eq_right hlt.le]
      unfold applyCommitted
      have hviews' : Views { r with log := log, commit := commit } L := hviews.congr rfl rfl rfl
      rw [hviews'.applyLoop _ _ (by simp only; omega)]
      simp only [show max r.applied commit = commit by omega]
    · simp only at hlt
      rw [max_eq_left (by omega), happ, Nat.sub_self]
      simp [← happ]
  have hset' : GhostSettled group g r.epoch (L.take (max r.commit commit)) := by
    rcases le_total commit r.commit with hle | hle
    · rw [max_eq_left hle, hcut, ← h.epoch]
      exact h.settled
    · obtain ⟨T, rfl⟩ := hML
      rw [max_eq_right hle, take_append_of_le_length hcm]
      exact hset
  simp only [hfold, hviews.last, hcommitted]
  obtain ⟨g', hmoves, hg', hsim, hlog, hack⟩ := h.adoptAck { r with
      log := log
      commit := max r.commit commit
      applied := max r.commit commit } hg hne hL hkeep ⟨rfl, rfl, rfl, rfl⟩ hrole
    (hviews.congr rfl rfl rfl) (by simp only; omega) rfl (by simp only; omega) hset'
  refine ⟨g', hmoves, hg', hsim, ?_⟩
  rw [append_assoc]
  refine actsSim_quiet_append (fun a ha => ?_) (.inr fun p hp => ?_) (actsSim_apply_append ?_)
  · obtain ⟨n, -, rfl⟩ := map_eq_some_iff.1 (mem_toList.1 ha)
    trivial
  · obtain ⟨n, -, hn⟩ := map_eq_some_iff.1 (mem_toList.1 hp)
    cases hn
  · rw [hlog, happ, ← hcut, ← take_add,
      show r.commit + (max r.commit commit - r.commit) = max r.commit commit by omega]
    exact actsSim_quiet (by simpa [QuietSim, PacketSim] using ⟨_, le_rfl, hack⟩)

/-! ### Snapshots -/

theorem RaftSim.simulated_acceptSnapshot (hrole : r.role = .follower)
    (hmsg : PacketSim group g sender id (.installSnapshot r.epoch lastSeq lastEpoch data))
    (hv : r.Vouched (.installSnapshot r.epoch lastSeq lastEpoch data)) :
    Simulated group g id r (r.acceptSnapshot sender lastSeq lastEpoch data) := by
  obtain ⟨hne, hdata, rfl, rfl, hset⟩ := hmsg
  have hv := hv.resolve_left (lt_irrefl _)
  have happ := h.applied_eq
  have hbase := h.base_le
  have hcl := h.commit_le
  have hold := h.settled
  rw [h.epoch] at hold
  unfold acceptSnapshot
  by_cases hstale : data.length ≤ r.applied
  · rw [if_pos hstale] at hv ⊢
    obtain ⟨g', hmoves, hg', hsim, hlog, hack⟩ := h.adoptAck r hg hne
      (h.prefix_of_tailKnown hnd hg hne hv) (fun P hP _ => hP) ⟨rfl, rfl, rfl, rfl⟩ hrole h.views
      hbase happ hcl hold
    refine ⟨g', hmoves, hg', hsim, ?_⟩
    rw [hlog, h.views.last]
    exact actsSim_quiet (by simpa [QuietSim, PacketSim] using ⟨_, le_rfl, hack⟩)
  · rw [if_neg hstale] at hv ⊢
    -- the snapshot keeps everything the log has in common with the leader's
    have hkeep : ∀ P, P <+: g.log id → P <+: g.lead r.epoch → P <+: data := by
      intro P hP hPlead
      rcases prefix_or_prefix_of_prefix hPlead hdata with hin | hout
      · exact hin
      rcases hout.length_le.eq_or_lt with heq | hlt
      · rw [hout.eq_of_length heq]
      · refine absurd ⟨?_, ?_⟩ hv
        · rw [h.views.last]
          exact hlt.trans_le hP.length_le
        · have hpos : data ≠ [] := by rintro rfl; simp at hstale
          obtain ⟨K, a, rfl⟩ := (eq_nil_or_concat' data).resolve_left hpos
          obtain ⟨T, hT⟩ := hout.trans hP
          rw [h.views.entry_of_lt (by omega), ← hT]
          simp
    obtain ⟨g', hmoves, hg', hsim, hlog, hack⟩ := h.adoptAck { r with
        log := []
        baseSeq := data.length
        baseEpoch := lastEp Entry.epoch data
        commit := data.length
        applied := data.length } hg hne hdata hkeep ⟨rfl, rfl, rfl, rfl⟩ hrole
      ⟨le_rfl, drop_length.symm, by rw [take_length],
        (hg.numbered _).anti hdata⟩ le_rfl rfl le_rfl (by rw [take_length]; exact hset)
    refine ⟨g', hmoves, hg', hsim, ?_, ?_⟩
    · refine prefix_of_prefix_length_le (hg.settled_lead hnd ?_ hne) hdata ?_
      · rw [happ]
        exact hold
      · rw [length_take]
        omega
    · rw [hlog, take_length]
      exact actsSim_quiet (by simpa [QuietSim, PacketSim] using ⟨_, le_rfl, hack⟩)

/-! ### Every message -/

/-- **An append.** -/
theorem RaftSim.simulated_handleAppend
    (hmsg : PacketSim group g sender id (.append epoch prevSeq prevEpoch entries commit))
    (hv : r.Vouched (D := List Entry) (.append epoch prevSeq prevEpoch entries commit)) :
    Simulated group g id r (r.handleAppend sender epoch prevSeq prevEpoch entries commit) := by
  unfold handleAppend
  split_ifs with hlt
  · exact h.simulated hg rfl (by simp [QuietSim, PacketSim])
  refine h.simulated_follow hg (not_lt.1 hlt) (.inl ⟨_, _, _, _, rfl⟩) hmsg hv
    (fun r₁ => r₁.acceptAppend sender prevSeq prevEpoch entries commit) ?_
  rintro g₁ r₁ hg₁ h₁ rfl hrole hmsg₁ hv₁
  exact h₁.simulated_acceptAppend hnd hg₁ hrole hmsg₁ hv₁

/-- **A snapshot.** -/
theorem RaftSim.simulated_handleInstallSnapshot
    (hmsg : PacketSim group g sender id (.installSnapshot epoch lastSeq lastEpoch data))
    (hv : r.Vouched (.installSnapshot epoch lastSeq lastEpoch data)) :
    Simulated group g id r (r.handleInstallSnapshot sender epoch lastSeq lastEpoch data) := by
  unfold handleInstallSnapshot
  split_ifs with hlt
  · exact h.simulated hg rfl (by simp [QuietSim, PacketSim])
  refine h.simulated_follow hg (not_lt.1 hlt) (.inr ⟨_, _, _, rfl⟩) hmsg hv
    (fun r₁ => r₁.acceptSnapshot sender lastSeq lastEpoch data) ?_
  rintro g₁ r₁ hg₁ h₁ rfl hrole hmsg₁ hv₁
  exact h₁.simulated_acceptSnapshot hnd hg₁ hrole hmsg₁ hv₁

end

/-- **Every message that is vouched for is backed by abstract steps.** -/
theorem RaftSim.simulated_handle (hnd : group.Nodup)
    (hid : id ∈ group) (hg : GhostInv group g) (h : RaftSim group g id r)
    (hmsg : PacketSim group g sender id m) (hv : r.Vouched m) :
    Simulated group g id r (r.handle sender m) := by
  cases m with
  | voteReq epoch lastEpoch lastSeq => exact h.simulated_handleVoteReq hg hid hmsg
  | voteResp epoch granted => exact h.simulated_handleVoteResp hg hnd hmsg
  | append epoch prevSeq prevEpoch entries commit => exact h.simulated_handleAppend hnd hg hmsg hv
  | appendResp epoch matchSeq ok => exact h.simulated_handleAppendResp hg hnd hid hmsg
  | installSnapshot epoch lastSeq lastEpoch data =>
    exact h.simulated_handleInstallSnapshot hnd hg hmsg hv

end RandallFlare
