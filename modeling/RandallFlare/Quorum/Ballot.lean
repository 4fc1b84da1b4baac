import RandallFlare.Quorum.Cluster
import RandallFlare.Quorum.Spec
import RandallFlare.Lib.Majority

/-!
# What the operations do to epoch, vote and role

Votes are what an election rests on, and a vote counts once it is durable.  `Elects` says of an
operation that it never takes back the vote of an epoch, that a vote it changes is persisted before
anything is sent, that it grants only what it has voted for, and that a leader it makes was voted
for by a majority.  `elects_perform` proves it for every operation.
-/

namespace RandallFlare

open Raft Effect List

/-- The meta record is written before anything is sent. -/
def PersistFirst (as : List Effect) : Prop :=
  ∃ before after, as = before ++ .act .persistMeta :: after ∧
    ∀ p m, act (.send p m) ∉ before

variable {as : List Effect} {epoch : ℕ} {sender : PublicId} {lastEpoch lastSeq : ℕ}

theorem PersistFirst.append (h : PersistFirst as) (bs : List Effect) : PersistFirst (as ++ bs) := by
  obtain ⟨before, after, rfl, hno⟩ := h
  exact ⟨before, after ++ bs, by simp, hno⟩

theorem PersistFirst.mem_of_send (h : PersistFirst as) {k : ℕ} {p : PublicId}
    {m : Msg (List Entry)} (hs : act (.send p m) ∈ as.take k) : act .persistMeta ∈ as.take k := by
  obtain ⟨before, after, rfl, hno⟩ := h
  rcases le_or_gt k before.length with hk | hk
  · rw [take_append_of_le_length hk] at hs
    exact absurd (mem_of_mem_take hs) (hno p m)
  · rw [take_append, take_of_length_le hk.le]
    obtain ⟨j, hj⟩ : ∃ j, k - before.length = j + 1 := ⟨k - before.length - 1, by omega⟩
    rw [hj, take_succ_cons]
    simp

/-- Votes made durable: voter, epoch, candidate. -/
abbrev Votes := Set (PublicId × ℕ × PublicId)

section

variable (group : List PublicId) (V : Votes) (id : PublicId)

/-- A majority voted for `id` in `epoch`, or there is nobody else to vote for. -/
def Won (epoch : ℕ) : Prop :=
  (∃ Q, Majority.Quorum group Q ∧ ∀ v ∈ Q, (v, epoch, id) ∈ V) ∨ group.length ≤ 1

/-- A leader has won its epoch; the votes a candidate counts were cast, its own at least in
memory. -/
structure RoleBallot (r : Raft) : Prop where
  won : r.isLeader → Won group V id r.epoch
  votes : ∀ vs, r.role = .candidate vs → vs.Nodup ∧ ∀ v ∈ vs, v ∈ group ∧
    ((v, r.epoch, id) ∈ V ∨ v = id ∧ r.votedFor = some id)

/-- What an operation does to epoch, vote and role. -/
structure Elects (r : Raft) (out : Raft × List Effect) : Prop where
  me : out.1.me = r.me
  group_eq : out.1.group = r.group
  epoch_le : r.epoch ≤ out.1.epoch
  vote_kept : out.1.epoch = r.epoch → ∀ c, r.votedFor = some c → out.1.votedFor = some c
  persisted : out.1.epoch = r.epoch ∧ out.1.votedFor = r.votedFor ∨ PersistFirst out.2
  grants : ∀ p e, act (.send p (.voteResp e true)) ∈ out.2 →
    e = out.1.epoch ∧ out.1.votedFor = some p
  role : RoleBallot group V id out.1

end

variable {group : List PublicId} {V V' : Votes} {id : PublicId} {r : Raft}

theorem Won.mono (h : Won group V id epoch) (hV : V ⊆ V') : Won group V' id epoch := by
  refine h.imp_left ?_
  rintro ⟨Q, hQ, hall⟩
  exact ⟨Q, hQ, fun v hv => hV (hall v hv)⟩

theorem RoleBallot.mono (h : RoleBallot group V id r) (hV : V ⊆ V') : RoleBallot group V' id r where
  won hl := (h.won hl).mono hV
  votes vs hvs := ⟨(h.votes vs hvs).1, fun v hv =>
    ⟨((h.votes vs hvs).2 v hv).1, ((h.votes vs hvs).2 v hv).2.imp_left fun hm => hV hm⟩⟩

theorem Won.eq (hnd : group.Nodup) (hV : ∀ v e c d, (v, e, c) ∈ V → (v, e, d) ∈ V → c = d)
    {a b : PublicId} (ha : a ∈ group) (hb : b ∈ group) (hwa : Won group V a epoch)
    (hwb : Won group V b epoch) : a = b := by
  have hsmall : group.length ≤ 1 → a = b := fun hlen => by
    obtain ⟨x, hx⟩ := length_eq_one_iff.1 (le_antisymm hlen (length_pos_of_mem ha))
    rw [hx, mem_singleton] at ha hb
    rw [ha, hb]
  rcases hwa with ⟨Q, hQ, hQa⟩ | hlen
  · rcases hwb with ⟨R, hR, hRb⟩ | hlen
    · obtain ⟨v, hvQ, hvR⟩ := hQ.meet hnd hR
      exact hV v epoch a b (hQa v hvQ) (hRb v hvR)
    · exact hsmall hlen
  · exact hsmall hlen

/-! ### Each operation -/

theorem Elects.of_votes {r' : Raft}
    (hsame : r'.me = r.me ∧ r'.group = r.group ∧ r'.epoch = r.epoch ∧ r'.votedFor = r.votedFor)
    (hgrants : ∀ p e, act (.send p (.voteResp e true)) ∉ as)
    (hrole : RoleBallot group V id r') : Elects group V id r (r', as) where
  me := hsame.1
  group_eq := hsame.2.1
  epoch_le := hsame.2.2.1.ge
  vote_kept _ _ hc := hsame.2.2.2.trans hc
  persisted := .inl hsame.2.2
  grants p e hm := absurd hm (hgrants p e)
  role := hrole

theorem Elects.of_same {r' : Raft} (h : RoleBallot group V id r)
    (hsame : r'.me = r.me ∧ r'.group = r.group ∧ r'.epoch = r.epoch ∧ r'.votedFor = r.votedFor)
    (hr : r'.role = r.role) (hgrants : ∀ p e, act (.send p (.voteResp e true)) ∉ as) :
    Elects group V id r (r', as) := by
  refine Elects.of_votes hsame hgrants ⟨fun hl => ?_, fun vs hvs => ?_⟩
  · rw [hsame.2.2.1]
    rw [isLeader, hr] at hl
    exact h.won hl
  · rw [hsame.2.2.1, hsame.2.2.2]
    exact h.votes vs (hr ▸ hvs)

theorem elects_refl (h : RoleBallot group V id r) : Elects group V id r (r, []) :=
  Elects.of_same h ⟨rfl, rfl, rfl, rfl⟩ rfl (by simp)

theorem Elects.trans {r₁ r₂ : Raft} {bs : List Effect} (h : Elects group V id r (r₁, as))
    (hquiet : ∀ p m, act (.send p m) ∉ as) (h₂ : Elects group V id r₁ (r₂, bs)) :
    Elects group V id r (r₂, as ++ bs) where
  me := h₂.me.trans h.me
  group_eq := h₂.group_eq.trans h.group_eq
  epoch_le := h.epoch_le.trans h₂.epoch_le
  vote_kept he c hc := by
    have h₁ := h.epoch_le
    have h₂' := h₂.epoch_le
    simp only at he h₁ h₂'
    exact h₂.vote_kept (by simp only; omega) c (h.vote_kept (by simp only; omega) c hc)
  persisted := by
    rcases h.persisted with ⟨he, hv⟩ | hp
    · rcases h₂.persisted with ⟨he₂, hv₂⟩ | ⟨before, after, heq, hno⟩
      · exact .inl ⟨he₂.trans he, hv₂.trans hv⟩
      · refine .inr ⟨as ++ before, after, ?_, fun p m hm => ?_⟩
        · rw [append_assoc]
          exact congrArg (as ++ ·) heq
        · rcases mem_append.1 hm with hm | hm
          · exact hquiet p m hm
          · exact hno p m hm
    · exact .inr (hp.append bs)
  grants p e hm := by
    rcases mem_append.1 hm with hm | hm
    · exact absurd hm (hquiet p _)
    · exact h₂.grants p e hm
  role := h₂.role

variable {as : List (Action (List Entry))}

theorem mem_map_act {a : Action (List Entry)} : act a ∈ as.map act ↔ a ∈ as :=
  mem_map_of_injective fun _ _ h => by injection h

theorem not_mem_of_not_grants (h : ∀ a ∈ as, ¬ Raft.Grants a) (p : PublicId) (e : ℕ) :
    act (.send p (.voteResp e true)) ∉ as.map act := fun hm =>
  h _ (mem_map_act.1 hm) ⟨p, e, rfl⟩

theorem quiet_of_silent (h : ∀ a ∈ as, a = .persistMeta ∨ a = .lostLeadership) (p : PublicId)
    (m : Msg (List Entry)) : act (.send p m) ∉ as.map act := by
  rw [mem_map_act]
  intro hm
  rcases h _ hm with h | h <;> cases h

theorem roleBallot_follower (hr : r.role = .follower) : RoleBallot group V id r where
  won hl := by
    obtain ⟨next, matched, hr'⟩ := isLeader_iff.1 hl
    rw [hr] at hr'
    cases hr'
  votes vs hvs := by rw [hr] at hvs; cases hvs

theorem elects_becomeFollower (group : List PublicId) (V : Votes) (id : PublicId) (r : Raft)
    (epoch : ℕ) : Elects group V id r (effects (r.becomeFollower epoch)) where
  me := by rw [becomeFollower_fst]
  group_eq := by rw [becomeFollower_fst]
  epoch_le := by rw [becomeFollower_fst]; exact le_max_left _ _
  vote_kept he c hc := by
    rw [becomeFollower_fst] at he ⊢
    simp only at he ⊢
    rw [if_neg (by omega), hc]
  persisted := by
    by_cases hlt : r.epoch < epoch
    · have hacts : (r.becomeFollower (D := List Entry) epoch).2 =
          .persistMeta :: if r.isLeader then [.lostLeadership] else [] := by
        simp [becomeFollower, hlt]
      rw [effects, hacts]
      exact .inr ⟨[], _, rfl, fun p m hm => by cases hm⟩
    · left
      rw [becomeFollower_fst]
      exact ⟨max_eq_left (not_lt.1 hlt), if_neg hlt⟩
  grants p e hm := absurd hm (quiet_of_silent (fun _ ha => mem_becomeFollower_snd ha) p _)
  role := roleBallot_follower (by rw [becomeFollower_fst])

theorem elects_follow (group : List PublicId) (V : Votes) (id : PublicId) (r : Raft)
    (sender : PublicId) (epoch : ℕ) : Elects group V id r (effects (r.follow sender epoch)) where
  me := by rw [follow_fst]
  group_eq := by rw [follow_fst]
  epoch_le := by rw [follow_fst]; exact le_max_left _ _
  vote_kept he c hc := by
    rw [follow_fst] at he ⊢
    simp only at he ⊢
    rw [if_neg (by omega), hc]
    rfl
  persisted := by
    rcases (elects_becomeFollower group V id r epoch).persisted
      with ⟨he, hv⟩ | hp
    · by_cases hnone : (r.becomeFollower (D := List Entry) epoch).1.votedFor = none
      · -- the sender is remembered as the vote of this epoch, and that is persisted
        right
        unfold follow
        simp only [hnone, if_true, map_append]
        exact ⟨(r.becomeFollower epoch).2.map .act, [], rfl,
          quiet_of_silent fun _ ha => mem_becomeFollower_snd ha⟩
      · left
        unfold follow
        simp only [hnone, if_false]
        exact ⟨he, hv⟩
    · right
      unfold follow
      dsimp only
      split_ifs
      · rw [map_append]
        exact hp.append _
      · exact hp
  grants p e hm := absurd hm (quiet_of_silent (fun _ ha => mem_follow_snd ha) p _)
  role := roleBallot_follower (by rw [follow_fst])

theorem elects_tryWin (hperm : r.group.Perm group) (h : RoleBallot group V id r)
    (hown : ∀ vs, r.role = .candidate vs → vs.length ≤ 1 ∨ ∀ v ∈ vs, (v, r.epoch, id) ∈ V) :
    Elects group V id r (effects r.tryWin) := by
  unfold tryWin
  split
  case h_2 => exact elects_refl h
  rename_i vs hr
  split_ifs with hlen
  · exact elects_refl h
  have hmaj : group.length / 2 + 1 ≤ vs.length := by
    unfold majority at hlen
    rw [hperm.length_eq] at hlen
    omega
  refine Elects.of_votes ⟨rfl, rfl, rfl, rfl⟩ (not_mem_of_not_grants fun a ha => ?_)
    ⟨fun _ => ?_, fun vs' hvs' => by cases hvs'⟩
  · rcases mem_cons.1 ha with rfl | ha
    · exact Raft.Pulse.not_grants trivial
    · exact (pulse_replicateAll ha).not_grants
  · obtain ⟨hnd, hmem⟩ := h.votes vs hr
    rcases hown vs hr with hone | hall
    · exact .inr (by omega)
    · exact .inl ⟨_, Majority.Quorum.of_list _ hnd (fun v hv => (hmem v hv).1) hmaj,
        fun v hv => hall v (mem_toFinset.1 hv)⟩

theorem elects_tickElection (hid : id ∈ group) (hme : r.me = id) (hperm : r.group.Perm group)
    (h : RoleBallot group V id r) : Elects group V id r (effects r.tickElection) := by
  unfold tickElection
  split_ifs with hl
  · exact elects_refl h
  set r₁ : Raft := { r with
    epoch := r.epoch + 1
    votedFor := some r.me
    leader := none
    role := .candidate [r.me] } with hr₁
  have h₁ : RoleBallot group V id r₁ :=
    { won := fun hl => by cases hl
      votes := fun vs hvs => by
        obtain rfl : [r.me] = vs := by simpa [hr₁] using hvs
        refine ⟨nodup_singleton _, fun v hv => ?_⟩
        obtain rfl : v = id := by simpa [hme] using hv
        exact ⟨hid, .inr ⟨rfl, by simp [hr₁, hme]⟩⟩ }
  have hwin := elects_tryWin (r := r₁) hperm h₁ (fun vs hvs => .inl (by
    obtain rfl : [r.me] = vs := by simpa [hr₁] using hvs
    simp))
  obtain ⟨role, hrole⟩ := tryWin_fst (D := List Entry) r₁
  exact
    { me := hwin.me
      group_eq := hwin.group_eq
      epoch_le := (Nat.le_succ _).trans hwin.epoch_le
      vote_kept := fun he => by
        have := hwin.epoch_le
        simp only [hr₁] at he this
        omega
      persisted := .inr ⟨[], _, rfl, fun p m hm => by cases hm⟩
      grants := fun p e hm => by
        rw [mem_map_act] at hm
        rcases mem_append.1 hm with hm | hm
        · rcases mem_cons.1 hm with hm | hm
          · cases hm
          · obtain ⟨q, -, hq⟩ := mem_map.1 hm
            cases hq
        · exact hwin.grants p e (mem_map_act.2 hm)
      role := hwin.role }

theorem elects_handleVoteResp (hperm : r.group.Perm group) (h : RoleBallot group V id r)
    (hrec : ∀ c, r.votedFor = some c → (id, r.epoch, c) ∈ V)
    {granted : Bool} (hmsg : granted → sender ∈ group ∧ (sender, epoch, id) ∈ V) :
    Elects group V id r (effects (r.handleVoteResp sender epoch granted)) := by
  unfold handleVoteResp
  split_ifs with hlt hstale
  · exact elects_becomeFollower _ _ _ _ epoch
  · exact elects_refl h
  push Not at hstale
  obtain ⟨rfl, hgranted⟩ := hstale
  obtain ⟨hmem, hvote⟩ := hmsg hgranted
  have hall : ∀ {vs}, r.role = .candidate vs → ∀ v ∈ vs, v ∈ group ∧ (v, r.epoch, id) ∈ V := by
    intro vs hvs v hv
    obtain ⟨hin, hor⟩ := (h.votes vs hvs).2 v hv
    refine ⟨hin, ?_⟩
    rcases hor with hvote | ⟨hvid, hself⟩
    · exact hvote
    · rw [hvid]
      exact hrec id hself
  split
  case h_2 => exact elects_tryWin hperm h (fun vs hvs => .inr fun v hv => (hall hvs v hv).2)
  rename_i vs hr
  -- the votes with the sender's among them
  have hnew : ∀ v ∈ (if sender ∈ vs then vs else vs ++ [sender]),
      v ∈ group ∧ (v, r.epoch, id) ∈ V := by
    intro v hv
    split_ifs at hv
    · exact hall hr v hv
    · rcases mem_append.1 hv with hv | hv
      · exact hall hr v hv
      · rw [mem_singleton.1 hv]
        exact ⟨hmem, hvote⟩
  have hnd : (if sender ∈ vs then vs else vs ++ [sender]).Nodup := by
    split_ifs with hin
    · exact (h.votes vs hr).1
    · exact (h.votes vs hr).1.append (nodup_singleton _) (by simpa using hin)
  have hwin : Elects group V id { r with
      role := .candidate (if sender ∈ vs then vs else vs ++ [sender]) } _ := elects_tryWin hperm
    { won := fun hl => by cases hl
      votes := fun vs' hvs' => by
        obtain rfl := (Role.candidate.injEq _ _).mp hvs'
        exact ⟨hnd, fun v hv => ⟨(hnew v hv).1, .inl (hnew v hv).2⟩⟩ }
    (fun vs' hvs' => by
      obtain rfl := (Role.candidate.injEq _ _).mp hvs'
      exact .inr fun v hv => (hnew v hv).2)
  exact { hwin with }

section

variable (h : RoleBallot group V id r)

include h

theorem elects_handleVoteReq_of_le (he : epoch ≤ r.epoch) :
    Elects group V id r (effects (r.handleVoteReq sender epoch lastEpoch lastSeq)) := by
  unfold handleVoteReq
  simp only [if_neg (not_lt.2 he), nil_append, decide_eq_true_eq]
  split_ifs with hg
  · obtain ⟨⟨rfl, -, -⟩, hnone⟩ := hg
    exact
      { me := rfl
        group_eq := rfl
        epoch_le := le_rfl
        vote_kept := fun _ c hc => by rw [hnone] at hc; cases hc
        persisted := .inr ⟨[], _, rfl, fun p m hm => by cases hm⟩
        grants := fun p e hm => by
          rw [mem_map_act] at hm
          simp only [mem_cons, reduceCtorEq, Action.send.injEq, Msg.voteResp.injEq,
            not_mem_nil, or_false, false_or] at hm
          exact ⟨hm.2.1, by rw [hm.1]⟩
        role :=
          { won := h.won
            votes := fun vs hvs => ⟨(h.votes vs hvs).1, fun v hv =>
              ⟨((h.votes vs hvs).2 v hv).1, .inl (((h.votes vs hvs).2 v hv).2.resolve_right
                fun hv => by rw [hnone] at hv; cases hv.2)⟩⟩ } }
  · refine { elects_refl h with persisted := .inl ⟨rfl, rfl⟩, grants := fun p e hm => ?_ }
    rw [mem_map_act, mem_singleton, Action.send.injEq, Msg.voteResp.injEq] at hm
    obtain ⟨rfl, rfl, hgr⟩ := hm
    obtain ⟨hep, hup, hv⟩ := of_decide_eq_true hgr.symm
    refine ⟨rfl, hv.resolve_left fun hnone => hg ⟨⟨hep, hup, hv⟩, hnone⟩⟩

theorem elects_handleVoteReq :
    Elects group V id r (effects (r.handleVoteReq sender epoch lastEpoch lastSeq)) := by
  rcases lt_or_ge r.epoch epoch with hlt | hle
  · rw [handleVoteReq_of_lt r sender hlt, effects_append]
    have hb := elects_becomeFollower group V id r epoch
    refine hb.trans (quiet_of_silent fun _ ha => mem_becomeFollower_snd ha)
      (elects_handleVoteReq_of_le hb.role ?_)
    rw [becomeFollower_fst]
    exact le_max_right _ _
  · exact elects_handleVoteReq_of_le h hle

theorem elects_advanceCommit : Elects group V id r (effects r.advanceCommit) := by
  obtain ⟨c, a, heq⟩ := r.advanceCommit_fst (D := List Entry)
  exact Elects.of_same h (by rw [heq]; exact ⟨rfl, rfl, rfl, rfl⟩) (by rw [heq])
    (not_mem_of_not_grants fun a ha => (pulse_advanceCommit ha).not_grants)

theorem elects_handleAppendResp {matchSeq : ℕ} {ok : Bool} :
    Elects group V id r (effects (r.handleAppendResp sender epoch matchSeq ok)) := by
  unfold handleAppendResp
  split_ifs
  · exact elects_becomeFollower _ _ _ _ epoch
  · exact elects_refl h
  all_goals
    split
    case h_2 => exact elects_refl h
    rename_i next matched hr
    -- a leader stays one, whatever its tables say
    have hlead : ∀ next' matched',
        RoleBallot group V id { r with role := .leader next' matched' } := fun next' matched' =>
      ⟨fun _ => h.won (isLeader_iff.2 ⟨next, matched, hr⟩), fun vs hvs => by cases hvs⟩
  · have := elects_advanceCommit (hlead (updatePeer sender (fun _ => matchSeq + 1) next)
      (updatePeer sender (fun m => max m matchSeq) matched))
    exact { this with }
  · dsimp only [effects]
    exact Elects.of_votes ⟨rfl, rfl, rfl, rfl⟩
      (not_mem_of_not_grants fun a ha => (pulse_replicateAll ha).not_grants) (hlead _ _)

theorem elects_handleAppend {prevSeq prevEpoch : ℕ} {entries : List Entry} {commit : ℕ} :
    Elects group V id r
      (effects (r.handleAppend sender epoch prevSeq prevEpoch entries commit)) := by
  unfold handleAppend
  split_ifs with hlt
  · exact Elects.of_same h ⟨rfl, rfl, rfl, rfl⟩ rfl (by simp)
  rw [effects_append]
  have hf := elects_follow group V id r sender epoch
  refine hf.trans (quiet_of_silent fun _ ha => mem_follow_snd ha) ?_
  obtain ⟨log, c, a, heq⟩ := (r.follow (D := List Entry) sender epoch).1.acceptAppend_fst
    (D := List Entry) sender prevSeq prevEpoch entries commit
  exact Elects.of_same hf.role (by rw [heq]; exact ⟨rfl, rfl, rfl, rfl⟩) (by rw [heq])
    (not_mem_of_not_grants fun a ha => not_grants_acceptAppend ha)

theorem elects_handleInstallSnapshot {data : List Entry} :
    Elects group V id r (effects (r.handleInstallSnapshot sender epoch lastSeq lastEpoch data)) := by
  unfold handleInstallSnapshot
  split_ifs with hlt
  · exact Elects.of_same h ⟨rfl, rfl, rfl, rfl⟩ rfl (by simp)
  rw [effects_append]
  have hf := elects_follow group V id r sender epoch
  refine hf.trans (quiet_of_silent fun _ ha => mem_follow_snd ha) ?_
  obtain ⟨log, b, be, c, a, heq⟩ :=
    (r.follow (D := List Entry) sender epoch).1.acceptSnapshot_fst sender lastSeq lastEpoch data
  refine Elects.of_same hf.role (by rw [heq]; exact ⟨rfl, rfl, rfl, rfl⟩) (by rw [heq]) ?_
  intro p e hm
  unfold acceptSnapshot at hm
  split_ifs at hm <;> simp at hm

theorem elects_propose {cmd : Bytes} : Elects group V id r (r.perform (.propose cmd)) := by
  unfold perform propose
  split_ifs with hl
  · have hadv : Elects group V id { r with
        log := r.log ++ [⟨r.epoch, r.last.2 + 1, cmd⟩] } _ :=
      elects_advanceCommit ⟨h.won, h.votes⟩
    obtain ⟨c, a, heq⟩ := advanceCommit_fst (D := List Entry) { r with
      log := r.log ++ [⟨r.epoch, r.last.2 + 1, cmd⟩] }
    refine Elects.of_votes (by dsimp only; rw [heq]; exact ⟨rfl, rfl, rfl, rfl⟩)
      (not_mem_of_not_grants fun a ha => ?_) hadv.role
    rcases mem_append.1 ha with ha | ha
    · rcases mem_cons.1 ha with rfl | ha
      · rintro ⟨q, e, heq⟩
        cases heq
      · exact (pulse_replicateAll ha).not_grants
    · exact (pulse_advanceCommit ha).not_grants
  · exact elects_refl h

end

/-- **Every operation.** -/
theorem elects_perform (hid : id ∈ group) (hme : r.me = id) (hperm : r.group.Perm group)
    (h : RoleBallot group V id r) (hrec : ∀ c, r.votedFor = some c → (id, r.epoch, c) ∈ V)
    {op : Op} (hmsg : ∀ sender e, op = .handle sender (.voteResp e true) →
      sender ∈ group ∧ (sender, e, id) ∈ V) : Elects group V id r (r.perform op) := by
  cases op with
  | tickElection => exact elects_tickElection hid hme hperm h
  | heartbeat =>
    refine Elects.of_same h ⟨rfl, rfl, rfl, rfl⟩ rfl (not_mem_of_not_grants fun a ha => ?_)
    unfold heartbeat at ha
    split_ifs at ha
    · exact (pulse_replicateAll ha).not_grants
    · cases ha
  | propose cmd => exact elects_propose h
  | compact keepTail =>
    obtain ⟨log, b, be, heq, -⟩ := r.compact_fst keepTail
    refine Elects.of_same h (by rw [heq]; exact ⟨rfl, rfl, rfl, rfl⟩) (by rw [heq]) ?_
    intro p e hm
    split_ifs at hm <;> simp at hm
  | handle sender msg =>
    cases msg with
    | voteReq epoch lastEpoch lastSeq => exact elects_handleVoteReq h
    | voteResp epoch granted =>
      exact elects_handleVoteResp hperm h hrec fun hg => hmsg sender epoch (by rw [hg])
    | append epoch prevSeq prevEpoch entries commit => exact elects_handleAppend h
    | appendResp epoch matchSeq ok => exact elects_handleAppendResp h
    | installSnapshot epoch lastSeq lastEpoch data => exact elects_handleInstallSnapshot h

end RandallFlare
