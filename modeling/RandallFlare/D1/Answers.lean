import RandallFlare.D1.Machine
import RandallFlare.D1.Reads

/-!
# Answers go to their own callers

A driver matches a pending call by the position of the entry it proposed.  A position proposed by a
leader that is deposed may later hold another leader's entry, so the match is sound only because a
leader that steps down forgets its calls before it applies anything else, and because the log of a
leader that does not step down changes by its own proposals alone.

* `Advances`: what an operation does to the entries of a member that leads before and after it;
* `Fleet.Created`: an entry was created by the request of a call;
* `Fleet.Owned`: the invariant, kept by every event (`Fleet.Owned.step`).
-/

namespace RandallFlare

open Raft List

/-! ### Pending calls -/

namespace Desk

theorem settle_subset (k : Desk) (epoch : ℕ) (e : Entry) :
    (k.settle epoch e).1.myEntries ⊆ k.myEntries := by
  unfold settle
  split
  · exact Subset.refl _
  · dsimp only
    split_ifs <;> exact filter_subset_self _

theorem react_subset (k : Desk) (epoch : ℕ) (a : Effect) :
    (k.react epoch a).1.myEntries ⊆ k.myEntries := by
  unfold react
  split
  · exact k.settle_subset epoch _
  · exact nil_subset _
  · exact Subset.refl _

theorem execute_subset (k : Desk) (epoch : ℕ) (as : List Effect) :
    (k.execute epoch as).1.myEntries ⊆ k.myEntries := by
  induction as generalizing k with
  | nil => exact Subset.refl _
  | cons a as ih => exact Subset.trans (ih _) (k.react_subset epoch a)

theorem mem_of_lookup {l : List (ℕ × ℕ)} {seq tag : ℕ} (h : l.lookup seq = some tag) :
    (seq, tag) ∈ l := by
  obtain ⟨l₁, l₂, rfl, -⟩ := lookup_eq_some_iff.1 h
  exact mem_append_right _ mem_cons_self

theorem mem_myEntries_of_applied {k : Desk} {epoch : ℕ} {as : List Effect} {tag E : ℕ} {e : Entry}
    (h : (tag, Answer.applied E e) ∈ (k.execute epoch as).2) : (e.seq, tag) ∈ k.myEntries := by
  induction as generalizing k with
  | nil => cases h
  | cons a as ih =>
    rcases mem_append.1 h with h | h
    · rcases mem_react h with heq | ⟨e', -, heq, hlook⟩ <;> cases heq
      exact mem_of_lookup hlook
    · exact k.react_subset epoch a (ih h)

theorem mem_register {k : Desk} {seq tag : ℕ} {p : ℕ × ℕ} (h : p ∈ (k.register seq tag).myEntries) :
    p = (seq, tag) ∨ p ∈ k.myEntries ∧ p.1 ≠ seq := by
  rcases mem_cons.1 h with h | h
  · exact .inl h
  · obtain ⟨hp, hne⟩ := mem_filter.1 h
    exact .inr ⟨hp, of_decide_eq_true hne⟩

end Desk

/-! ### A member that keeps leading -/

/-- What an operation does with the entries of `r`: those it applies are past the applied mark, and
those past the new mark stay. -/
structure Advances (r : Raft) (out : Raft × List Effect) : Prop where
  applies : ∀ e, .act (.apply e) ∈ out.2 → r.applied < e.seq ∧ r.entry e.seq = some e
  mark : r.applied ≤ out.1.applied
  keeps : ∀ n, out.1.applied < n → out.1.entry n = r.entry n

variable {r : Raft}

theorem Advances.of_same {r' : Raft} {as : List Effect} (hlog : r'.log = r.log)
    (hbase : r'.baseSeq = r.baseSeq) (happ : r'.applied = r.applied)
    (has : ∀ e, .act (.apply e) ∉ as) : Advances r (r', as) where
  applies e he := absurd he (has e)
  mark := happ.ge
  keeps n _ := entry_congr hlog hbase n

theorem Advances.after {out : Raft × List Effect} (h : Advances r out) (as : List Effect)
    (has : ∀ e, .act (.apply e) ∉ as) : Advances r (out.1, as ++ out.2) where
  applies e he := h.applies e ((mem_append.1 he).resolve_left (has e))
  mark := h.mark
  keeps := h.keeps

theorem mem_applyLoop {e : Entry} {k a : ℕ} (h : e ∈ r.applyLoop k a) :
    ∃ n, a < n ∧ r.entry n = some e := by
  induction k generalizing a with
  | zero => cases h
  | succ k ih =>
    rcases mem_append.1 h with h | h
    · exact ⟨a + 1, by omega, Option.mem_toList.1 h⟩
    · obtain ⟨n, hn, he⟩ := ih h
      exact ⟨n, by omega, he⟩

theorem not_apply_replicateAll {e : Entry} :
    Effect.act (.apply e) ∉ (r.replicateAll (D := List Entry)).map .act := by
  intro h
  obtain ⟨a, ha, hact⟩ := mem_map.1 h
  cases hact
  unfold replicateAll at ha
  split at ha
  · obtain ⟨p, -, hp⟩ := mem_map.1 ha
    dsimp only at hp
    split_ifs at hp
  · cases ha

theorem advances_applyCommitted (hc : Contiguous r) :
    Advances r ((r.applyCommitted (D := List Entry)).1, r.applyCommitted.2.map .act) where
  applies e he := by
    obtain ⟨a, ha, hact⟩ := mem_map.1 he
    cases hact
    obtain ⟨x, hx, hxe⟩ := mem_map.1 ha
    cases hxe
    obtain ⟨n, hn, hent⟩ := mem_applyLoop hx
    obtain ⟨hseq, -⟩ := Raft.Keeps.of_entry (P := fun _ => True) ⟨hc, fun _ _ => trivial⟩ hent
    rw [hseq]
    exact ⟨hn, hent⟩
  mark := le_max_left _ _
  keeps _ _ := rfl

theorem advances_advanceCommit (hc : Contiguous r) :
    Advances r ((r.advanceCommit (D := List Entry)).1, r.advanceCommit.2.map .act) := by
  unfold advanceCommit
  split
  · rename_i next matched _
    dsimp only
    split_ifs
    · have h := advances_applyCommitted (r := { r with
        commit := r.commitScan matched (r.last.2 - r.commit) (r.commit + 1) r.commit }) hc
      refine ⟨fun e he => ?_, h.mark, h.keeps⟩
      rw [map_append] at he
      exact h.applies e ((mem_append.1 he).resolve_right not_apply_replicateAll)
    · exact advances_applyCommitted hc
  · exact Advances.of_same rfl rfl rfl fun e he => by cases he

theorem not_isLeader_follow (sender : PublicId) (epoch : ℕ) :
    ¬ (r.follow (D := List Entry) sender epoch).1.isLeader := by
  rw [follow_fst]
  exact Bool.false_ne_true

theorem advances_handle (hc : Contiguous r) (hl : r.isLeader) {sender : PublicId}
    {msg : Msg (List Entry)} (hl' : (r.handle sender msg).1.isLeader) :
    Advances r ((r.handle sender msg).1, (r.handle sender msg).2.map .act) := by
  have hfollow : ∀ epoch, ¬ (r.becomeFollower (D := List Entry) epoch).1.isLeader := fun epoch => by
    exact Bool.false_ne_true
  obtain ⟨next, matched, hr⟩ := isLeader_iff.1 hl
  cases msg with
  | voteReq epoch lastEpoch lastSeq =>
    simp only [handle, handleVoteReq] at hl' ⊢
    by_cases hlt : r.epoch < epoch
    · simp only [if_pos hlt] at hl'
      split_ifs at hl' <;> exact absurd hl' (hfollow epoch)
    · simp only [if_neg hlt]
      split_ifs <;> exact Advances.of_same rfl rfl rfl (by simp)
  | voteResp epoch granted =>
    simp only [handle, handleVoteResp] at hl' ⊢
    split_ifs at hl' ⊢
    · exact absurd hl' (hfollow epoch)
    · exact Advances.of_same rfl rfl rfl (by simp)
    · simp only [hr, tryWin]
      exact Advances.of_same rfl rfl rfl (by simp)
  | append epoch prevSeq prevEpoch entries commit =>
    simp only [handle, handleAppend] at hl' ⊢
    split_ifs at hl' ⊢
    · exact Advances.of_same rfl rfl rfl (by simp)
    · obtain ⟨log, c, a, heq⟩ := acceptAppend_fst (D := List Entry)
        (r.follow (D := List Entry) sender epoch).1 sender prevSeq prevEpoch entries commit
      rw [heq] at hl'
      exact absurd hl' (not_isLeader_follow sender epoch)
  | appendResp epoch matchSeq ok =>
    simp only [handle, handleAppendResp] at hl' ⊢
    rw [hr] at hl' ⊢
    split_ifs at hl' ⊢
    · exact absurd hl' (hfollow epoch)
    · exact Advances.of_same rfl rfl rfl (by simp)
    · have h := advances_advanceCommit (r := { r with
        role := .leader (updatePeer sender (fun _ => matchSeq + 1) next)
          (updatePeer sender (fun m => max m matchSeq) matched) }) hc
      exact ⟨h.applies, h.mark, h.keeps⟩
    · dsimp only
      exact Advances.of_same rfl rfl rfl fun e => not_apply_replicateAll
  | installSnapshot epoch lastSeq lastEpoch data =>
    simp only [handle, handleInstallSnapshot] at hl' ⊢
    split_ifs at hl' ⊢
    · exact Advances.of_same rfl rfl rfl (by simp)
    · obtain ⟨log, b, be, c, a, heq⟩ := acceptSnapshot_fst
        (r.follow (D := List Entry) sender epoch).1 sender lastSeq lastEpoch data
      rw [heq] at hl'
      exact absurd hl' (not_isLeader_follow sender epoch)

theorem advances_compact (hb : r.baseSeq ≤ r.applied) (keepTail : ℕ) :
    Advances r (r.perform (.compact keepTail)) := by
  have hno : ∀ e, Effect.act (.apply e) ∉ (r.perform (.compact keepTail)).2 := fun e he => by
    simp only [perform] at he
    split_ifs at he <;> simp at he
  refine ⟨fun e he => absurd he (hno e), (compact_frame r keepTail).1.ge, fun n hn => ?_⟩
  simp only [perform, compact] at hn ⊢
  by_cases hle : r.applied - keepTail ≤ r.baseSeq
  · simp only [if_pos hle]
  simp only [if_neg hle] at hn ⊢
  cases hent : r.entry (r.applied - keepTail) with
  | none => rfl
  | some e =>
    simp only [hent] at hn ⊢
    dsimp only [entry]
    rw [if_neg (by omega), if_neg (by omega), getElem?_drop]
    congr 1
    omega

/-- **An operation of a member that leads before and after it**, other than a proposal. -/
theorem advances_perform (h : r.Tidy) (hl : r.isLeader) {op : Op}
    (hl' : (r.perform op).1.isLeader) (hop : ∀ cmd, op ≠ .propose cmd) :
    Advances r (r.perform op) := by
  cases op with
  | tickElection =>
    simp only [perform, tickElection, hl, if_true]
    exact Advances.of_same rfl rfl rfl (by simp)
  | heartbeat =>
    simp only [perform, heartbeat, hl, if_true]
    exact Advances.of_same rfl rfl rfl fun e => not_apply_replicateAll
  | propose cmd => exact absurd rfl (hop cmd)
  | compact keepTail => exact advances_compact h.base_le keepTail
  | handle sender msg => exact advances_handle h.contiguous hl hl'

/-- The instance with the entry a proposal creates. -/
def Raft.proposed (r : Raft) (cmd : Bytes) : Raft :=
  { r with log := r.log ++ [⟨r.epoch, r.last.2 + 1, cmd⟩] }

theorem contiguous_proposed (hc : Contiguous r) (cmd : Bytes) : Contiguous (r.proposed cmd) := by
  have h := hc.push (n := r.log.length) (e := ⟨r.epoch, r.last.2 + 1, cmd⟩) le_rfl
    (by rw [hc.last_snd])
  rwa [take_length] at h

theorem entry_proposed (hc : Contiguous r) (cmd : Bytes) (n : ℕ) : (r.proposed cmd).entry n =
      if n = r.last.2 + 1 then some ⟨r.epoch, r.last.2 + 1, cmd⟩ else r.entry n := by
  have hlast := hc.last_snd
  unfold entry proposed
  dsimp only
  split_ifs with hb heq heq
  · omega
  · rfl
  · rw [getElem?_append_right (by omega), show n - r.baseSeq - 1 - r.log.length = 0 by omega]
    rfl
  · rcases lt_or_ge (n - r.baseSeq - 1) r.log.length with hlt | hge
    · rw [getElem?_append_left hlt]
    · rw [getElem?_eq_none hge, getElem?_eq_none (by simp; omega)]

/-- **A proposal of a leader.** -/
theorem advances_propose (hc : Contiguous r) (hl : r.isLeader) (cmd : Bytes) :
    Advances (r.proposed cmd) (r.perform (.propose cmd)) := by
  have h := advances_advanceCommit (contiguous_proposed hc cmd)
  simp only [perform, propose, hl, if_true]
  have hout := h.after ((.persistLog (r.last.2 + 1) ::
    (r.proposed cmd).replicateAll (D := List Entry)).map .act) fun e he => by
      rcases mem_cons.1 he with he | he
      · cases he
      · exact not_apply_replicateAll he
  rw [← map_append] at hout
  exact hout

/-! ### Every run -/

namespace Fleet

variable {group : List PublicId} {evs : List (PublicId × Task)} {id : PublicId}

/-- Among the events so far, the driver `id` leading, is the request of a call `tag` whose proposal
created the entry. -/
def Created (group : List PublicId) (evs : List (PublicId × Task)) (id : PublicId) (tag : ℕ)
    (e : Entry) : Prop :=
  ∃ pre rq peers s, pre ++ [(id, .request rq peers)] <+: evs ∧ runFrom group pre = some s ∧
    rq.kind = .write ∧ rq.tag = tag ∧ (s.cluster.nodes id).raft.isLeader ∧
    e = ⟨(s.cluster.nodes id).raft.epoch, (s.cluster.nodes id).raft.last.2 + 1, rq.cmd⟩

theorem Created.append {tag : ℕ} {e : Entry}
    (h : Created group evs id tag e) (more : List (PublicId × Task)) :
    Created group (evs ++ more) id tag e := by
  obtain ⟨pre, rq, peers, s, hpre, hrest⟩ := h
  exact ⟨pre, rq, peers, s, hpre.trans (prefix_append _ _), hrest⟩

/-- Only a leader waits for entries; those it waits for, past its applied mark, are those the calls
created, and so are those the calls were told of. -/
structure Owned (group : List PublicId) (evs : List (PublicId × Task)) (s : Fleet) : Prop where
  inOrder : s.cluster.InOrder fun _ => True
  leads : ∀ id, (s.desks id).myEntries = [] ∨ (s.cluster.nodes id).raft.isLeader
  waits : ∀ id, ∀ p ∈ (s.desks id).myEntries, ∃ e, Created group evs id p.2 e ∧ e.seq = p.1 ∧
    ((s.cluster.nodes id).raft.applied < p.1 → (s.cluster.nodes id).raft.entry p.1 = some e)
  told : ∀ id tag epoch e, ⟨id, tag, .applied epoch e⟩ ∈ s.replies → Created group evs id tag e

theorem owned_init (group : List PublicId) : Owned group [] (init group) where
  inOrder := Cluster.inOrder_init _ group
  leads _ := .inl rfl
  waits _ p hp := by cases hp
  told _ _ _ _ h := by cases h

variable {evs : List (PublicId × Task)} {s t : Fleet} {id : PublicId}

variable {op : Op} {desk : Desk} {ev : PublicId × Task}

/-- What a driver waits for after an operation, and what it tells its callers. -/
theorem desk_waits {r r₁ : Raft} {C : ℕ → Entry → Prop} (hdesk : desk.myEntries = [] ∨ r.isLeader)
    (hadv : desk.myEntries ≠ [] → (r.perform op).1.isLeader → Advances r₁ (r.perform op))
    (hw : ∀ p ∈ desk.myEntries, ∃ e, C p.2 e ∧ e.seq = p.1 ∧
      (r₁.applied < p.1 → r₁.entry p.1 = some e)) :
    (∀ p ∈ (desk.execute (r.perform op).1.epoch (r.perform op).2).1.myEntries,
        ∃ e, C p.2 e ∧ e.seq = p.1 ∧
          ((r.perform op).1.applied < p.1 → (r.perform op).1.entry p.1 = some e)) ∧
      ∀ tag E e, (tag, Answer.applied E e) ∈
          (desk.execute (r.perform op).1.epoch (r.perform op).2).2 → C tag e := by
  obtain ⟨hnil, hacks⟩ := desk_execute op hdesk
  constructor
  · intro p hp
    rcases hnil with hnil | hl
    · rw [hnil] at hp
      cases hp
    · have hmem := Desk.execute_subset _ _ _ hp
      obtain ⟨e, hC, hseq, hent⟩ := hw p hmem
      have h := hadv (ne_nil_of_mem hmem) hl
      refine ⟨e, hC, hseq, fun hlt => ?_⟩
      rw [h.keeps p.1 hlt]
      exact hent (h.mark.trans_lt hlt)
  · intro tag E e hm
    obtain ⟨hl, -, happ⟩ := hacks tag E e hm
    have hmem := Desk.mem_myEntries_of_applied hm
    obtain ⟨hlt, hent⟩ := (hadv (ne_nil_of_mem hmem) hl).applies e happ
    obtain ⟨e', hC, -, hent'⟩ := hw _ hmem
    rw [hent' hlt] at hent
    cases hent
    exact hC

/-- An operation of a driver whose desk waits for entries of `r₁`, the instance with what was just
proposed. -/
theorem Owned.perform (h : Owned group evs s) {q : Raft}
    (hdesk : desk.myEntries = [] ∨ (s.cluster.nodes id).raft.isLeader)
    (hadv : desk.myEntries ≠ [] → ((s.cluster.nodes id).raft.perform op).1.isLeader →
      Advances q ((s.cluster.nodes id).raft.perform op))
    (hw : ∀ p ∈ desk.myEntries, ∃ e, Created group (evs ++ [ev]) id p.2 e ∧ e.seq = p.1 ∧
      (q.applied < p.1 → q.entry p.1 = some e))
    (ht : s.perform group id op desk = some t) : Owned group (evs ++ [ev]) t := by
  obtain ⟨c, hc, rfl⟩ := Option.map_eq_some_iff.1 ht
  obtain ⟨hwaits, htold⟩ := desk_waits hdesk hadv hw
  obtain ⟨hleads, -⟩ := desk_execute op hdesk
  refine ⟨h.inOrder.step hc fun _ _ => trivial, fun w => ?_, fun w => ?_, fun w tag E e hm => ?_⟩
  · unfold Cluster.step at hc
    split_ifs at hc
    cases hc
    by_cases hwid : w = id
    · subst hwid
      simpa [Replica.step_raft] using hleads
    · simpa [Cluster.put_nodes_of_ne _ hwid, hwid] using h.leads w
  · unfold Cluster.step at hc
    split_ifs at hc
    cases hc
    by_cases hwid : w = id
    · subst hwid
      simpa [Replica.step_raft] using hwaits
    · intro p hp
      simp only [Function.update_of_ne hwid] at hp
      obtain ⟨e, hcr, hrest⟩ := h.waits w p hp
      refine ⟨e, hcr.append [ev], ?_⟩
      simpa [Cluster.put_nodes_of_ne _ hwid] using hrest
  · rcases mem_append.1 hm with hm | hm
    · exact (h.told w tag E e hm).append [ev]
    · obtain ⟨p, hp, heq⟩ := mem_map.1 hm
      obtain ⟨rfl, rfl, hans⟩ := (Reply.mk.injEq ..).mp heq
      exact htold p.1 E e (hans ▸ hp)

/-- **Every event keeps the invariant.** -/
theorem Owned.step (h : Owned group evs s) (hrun : runFrom group evs = some s)
    (hstep : s.step group ev = some t) : Owned group (evs ++ [ev]) t := by
  obtain ⟨id, task⟩ := ev
  rcases Fleet.step_cases hstep with ⟨tag, answer, rfl, hno⟩ |
    ⟨op, desk, hperf, ⟨rfl, rfl, hop⟩ | ⟨rq, peers, rfl, hkind, hl, rfl, rfl⟩⟩
  · -- an immediate answer tells nobody of an entry
    refine ⟨h.inOrder, h.leads, fun w p hp => ?_, fun w tag' E e hm => ?_⟩
    · obtain ⟨e, hcr, hrest⟩ := h.waits w p hp
      exact ⟨e, hcr.append _, hrest⟩
    · rcases mem_append.1 hm with hm | hm
      · exact (h.told w tag' E e hm).append _
      · simp only [mem_singleton, Reply.mk.injEq] at hm
        exact absurd hm.2.2.symm (hno E e)
  · -- a driver with calls to answer leads
    refine h.perform (q := (s.cluster.nodes id).raft) (h.leads id) (fun hne hl' =>
      advances_perform (h.inOrder.nodes id).tidy ((h.leads id).resolve_left hne) hl' hop)
      (fun p hp => ?_) hperf
    obtain ⟨e, hcr, hrest⟩ := h.waits id p hp
    exact ⟨e, hcr.append _, hrest⟩
  · have hc := (h.inOrder.nodes id).tidy.contiguous
    refine h.perform (q := (s.cluster.nodes id).raft.proposed rq.cmd) (.inr hl)
      (fun _ _ => advances_propose hc hl rq.cmd) (fun p hp => ?_) hperf
    rcases Desk.mem_register hp with rfl | ⟨hp, hne⟩
    · exact ⟨_, ⟨evs, rq, peers, s, prefix_refl _, hrun, hkind, rfl, hl, rfl⟩, rfl, fun _ => by
        rw [entry_proposed hc, if_pos rfl]⟩
    · obtain ⟨e, hcr, hseq, hent⟩ := h.waits id p hp
      refine ⟨e, hcr.append _, hseq, fun hlt => ?_⟩
      rw [entry_proposed hc, if_neg hne]
      exact hent hlt

theorem owned_run {s : Fleet} (hrun : runFrom group evs = some s) : Owned group evs s := by
  induction evs using reverseRecOn generalizing s with
  | nil =>
    cases hrun
    exact owned_init group
  | append_singleton evs ev ih =>
    obtain ⟨u, hu, hus⟩ := Runs.run_append_eq_some.1 hrun
    obtain ⟨v, hv, hvs⟩ := Runs.run_cons_eq_some.1 hus
    cases hvs
    exact (ih hu).step hu hv

/-- **An answer belongs to the caller's own command**: in every run of a group's drivers, an entry a
call is told of is the one the call's own proposal created. -/
theorem answers_own_command {group : List PublicId} {s : Fleet}
    (hrun : runFrom group evs = some s) {tag epoch : ℕ} {e : Entry}
    (h : ⟨id, tag, .applied epoch e⟩ ∈ s.replies) : Created group evs id tag e :=
  (owned_run hrun).told id tag epoch e h

/-- Both callers of a handover are told of their own entries, the second of one at a position the
first leader never proposed. -/
theorem answers_own_command_handover :
    Created [nodeA, nodeB, nodeC] handoverRun nodeA 7 ⟨1, 1, [10]⟩ ∧
      Created [nodeA, nodeB, nodeC] handoverRun nodeB 8 ⟨2, 2, [20]⟩ := by
  obtain ⟨s, hs, hfirst, hsecond⟩ : ∃ s ∈ runFrom [nodeA, nodeB, nodeC] handoverRun,
      ⟨nodeA, 7, .applied 1 ⟨1, 1, [10]⟩⟩ ∈ s.replies ∧
      ⟨nodeB, 8, .applied 2 ⟨2, 2, [20]⟩⟩ ∈ s.replies := by decide +kernel
  exact ⟨answers_own_command hs hfirst, answers_own_command hs hsecond⟩

end Fleet

end RandallFlare
