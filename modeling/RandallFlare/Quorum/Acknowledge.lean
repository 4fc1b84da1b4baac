import RandallFlare.D1.Durable
import RandallFlare.Quorum.Safety

/-!
# What an acknowledgement says

A follower answers an `Append` that passes the consistency check with `ok` and `match_seq`, which
is documented as the highest position now matching the leader's log, and the leader counts that
number towards the commit index.  Two properties are at stake:

* the answer is truthful: the follower's log and the sender's agree up to `match_seq`
  (`truthful_iff`, and `append_of_logsMatch` for logs that match);
* it is kept: while the follower stays in that epoch its log does not end before `match_seq`
  (`acksKept_of_vouched`).

The source answers with the last position of the follower's log, whatever that log holds beyond the
entries sent, and an installed snapshot clears the log even where the log goes further.
-/

namespace RandallFlare

open List Cluster

namespace Raft

variable {r r' : Raft} {es : List Entry} {sender : PublicId} {epoch prevSeq prevEpoch commit : ℕ}

/-! ### The answer -/

/-- The follower `r` answers the message with `ok` and `matchSeq`. -/
def Answers (r : Raft) (sender : PublicId) (msg : Msg (List Entry)) (matchSeq : ℕ) : Prop :=
  ∃ epoch, .send sender (.appendResp epoch matchSeq true) ∈ (r.handle sender msg).2

/-- What `match_seq` of an answer is documented to mean, for a sender whose whole log is `S`: the
follower's log and the sender's agree up to it, and it is at most `bound`. -/
def Truthful (r : Raft) (sender : PublicId) (msg : Msg (List Entry)) (S : List Entry)
    (bound : ℕ) : Prop :=
  ∀ m, r.Answers sender msg m →
    m ≤ bound ∧ ∀ n, r.baseSeq < n → n ≤ m → (r.handle sender msg).1.entry n = S[n - 1]?

/-- The follower keeps no entry that is not the sender's: those it has up to the end of the entries
sent, before any conflict, are the sender's, and behind that it has none or a conflict removes
them. -/
structure Attests (r : Raft) (S : List Entry) (prevSeq : ℕ) (entries : List Entry) : Prop where
  kept : ∀ n, r.baseSeq < n → n ≤ r.last.2 → n ≤ prevSeq + entries.length →
    (∀ e ∈ entries, e.seq ≤ n → ¬ r.Conflicts e) → r.entry n = S[n - 1]?
  ends : r.last.2 ≤ max r.baseSeq (prevSeq + entries.length) ∨ ∃ e ∈ entries, r.Conflicts e

/-- The entries sent are the sender's after position `prevSeq`, one after the other. -/
def SentFrom (S : List Entry) (prevSeq : ℕ) (entries : List Entry) : Prop :=
  ∀ i x, entries[i]? = some x → x.seq = prevSeq + i + 1 ∧ S[prevSeq + i]? = some x

theorem SentFrom.getElem?_eq {S : List Entry} (h : SentFrom S prevSeq es) {n : ℕ}
    (hn : prevSeq < n) (hle : n ≤ prevSeq + es.length) : es[n - prevSeq - 1]? = S[n - 1]? := by
  obtain ⟨j, rfl⟩ : ∃ j, n = prevSeq + j + 1 := ⟨n - prevSeq - 1, by omega⟩
  have hj : es[j]? = some es[j] := getElem?_eq_getElem (by omega)
  rw [show prevSeq + j + 1 - prevSeq - 1 = j by omega, hj, Nat.add_sub_cancel]
  exact ((h j _ hj).2).symm

/-- The answer to an `Append` that passes the check is the end of the log after the append loop. -/
theorem answers_append_iff {m : ℕ} (hepoch : r.epoch ≤ epoch) (hok : r.prevOk prevSeq prevEpoch) :
    r.Answers sender (.append epoch prevSeq prevEpoch es commit) m ↔
      m = (es.foldl appendEntry ((r.follow (D := List Entry) sender epoch).1, none)).1.last.2 := by
  have hok' : (r.follow (D := List Entry) sender epoch).1.prevOk prevSeq prevEpoch := by
    rw [follow_fst]
    exact hok
  unfold Answers
  simp only [handle, handleAppend, if_neg (Nat.not_lt.2 hepoch), acceptAppend, hok', not_true,
    if_false, mem_append, mem_singleton, Option.mem_toList]
  constructor
  · rintro ⟨e, h | ((h | h) | h)⟩
    · rcases mem_follow_snd h with h | h <;> cases h
    · simp at h
    · obtain ⟨x, hx⟩ := mem_learnCommit_snd h
      cases hx
    · cases h
      rfl
  · rintro rfl
    exact ⟨_, .inr (.inr rfl)⟩

/-- Following the sender does not touch the log, so the append loop starts from the own one. -/
theorem handle_append_fst
    (es : List Entry) (hepoch : r.epoch ≤ epoch) (hok : r.prevOk prevSeq prevEpoch) :
    ∃ q, (r.follow (D := List Entry) sender epoch).1 = q ∧ q.log = r.log ∧
      q.baseSeq = r.baseSeq ∧
      ∀ r', (r.handle (D := List Entry) sender
        (.append epoch prevSeq prevEpoch es commit)).1 = r' →
        r'.baseSeq = r.baseSeq ∧ r'.log = (es.foldl appendEntry (q, none)).1.log := by
  have hok' : (r.follow (D := List Entry) sender epoch).1.prevOk prevSeq prevEpoch := by
    rw [follow_fst]
    exact hok
  obtain ⟨log, hlog⟩ := foldl_appendEntry_fst es (r.follow (D := List Entry) sender epoch).1 none
  obtain ⟨c, a, hcommit, -⟩ := learnCommit_fst (D := List Entry)
    { (r.follow (D := List Entry) sender epoch).1 with log := log } commit
  refine ⟨_, rfl, by rw [follow_fst], by rw [follow_fst], ?_⟩
  rintro r' rfl
  simp only [handle, handleAppend, if_neg (Nat.not_lt.2 hepoch), acceptAppend, hok', not_true,
    if_false, hlog, hcommit]
  exact ⟨by rw [follow_fst], trivial⟩

theorem entry_cut {f n : ℕ} (hb : r.baseSeq < f)
    (hf : f ≤ r.baseSeq + r.log.length + 1) (hbase : r'.baseSeq = r.baseSeq)
    (hlog : r'.log = r.log.take (f - r.baseSeq - 1) ++ es) (hn : r.baseSeq < n) :
    r'.entry n = if n < f then r.entry n else es[n - f]? := by
  have hlen : (r.log.take (f - r.baseSeq - 1)).length = f - r.baseSeq - 1 := by
    rw [length_take]
    omega
  have hnb : ¬ n ≤ r.baseSeq := Nat.not_le.2 hn
  unfold entry
  simp only [hbase, hlog, if_neg hnb]
  split_ifs with hlt
  · rw [getElem?_append_left (by omega), getElem?_take, if_pos (by omega)]
  · rw [getElem?_append_right (by omega), hlen]
    congr 1
    omega

/-- **The answer to an `Append` that passes the check.**  Without a conflict the log stays and its
end is the answer; the first conflict truncates it, and the answer is the end of the entries
sent. -/
theorem append_outcome (sender : PublicId) (commit : ℕ)
    (hc : Contiguous r) (hseq : ∀ i x, es[i]? = some x → x.seq = prevSeq + i + 1)
    (hepoch : r.epoch ≤ epoch) (hok : r.prevOk prevSeq prevEpoch)
    (hr' : (r.handle (D := List Entry) sender
      (.append epoch prevSeq prevEpoch es commit)).1 = r') :
    ∃ m, (∀ k, r.Answers sender (.append epoch prevSeq prevEpoch es commit) k ↔ k = m) ∧
      (((∀ e ∈ es, ¬ r.Conflicts e) ∧ m = r.last.2 ∧ ∀ n, r'.entry n = r.entry n) ∨
        ∃ e ∈ es, r.Conflicts e ∧ (∀ x ∈ es, x.seq < e.seq → ¬ r.Conflicts x) ∧
          e.seq ≤ r.last.2 + 1 ∧ m = prevSeq + es.length ∧ ∀ n, r.baseSeq < n →
            r'.entry n = if n < e.seq then r.entry n else es[n - prevSeq - 1]?) := by
  obtain ⟨q, hq, hqlog, hqb, hafter⟩ := handle_append_fst es hepoch hok
  obtain ⟨hb', hlog'⟩ := hafter r' hr'
  have hcq : Contiguous q := by
    intro i e he
    rw [hqb]
    exact hc i e (hqlog ▸ he)
  have hconf : ∀ e, q.Conflicts e ↔ r.Conflicts e := fun e => by
    unfold Conflicts
    rw [entry_congr hqlog hqb, hqb]
  have hp : prevSeq ≤ q.baseSeq + q.log.length := by
    rw [hqb, hqlog]
    exact le_of_prevOk hok
  have hfold := foldl_appendEntry hcq none hp hseq
  refine ⟨_, fun k => by rw [answers_append_iff hepoch hok, hq], ?_⟩
  rw [(contiguous_foldl_appendEntry hcq none hp hseq).last_snd]
  simp only [hconf, hqlog, hqb] at hfold
  rcases hfold with ⟨hnone, heq⟩ | ⟨kept, e, pushed, hes, hkept, he, hend, heq⟩ <;>
    (rw [heq] at hlog' ⊢; simp only [hqlog, hqb] at hlog' ⊢)
  · exact .inl ⟨hnone, hc.last_snd.symm, entry_congr hlog' hb'⟩
  · have heseq : e.seq = prevSeq + kept.length + 1 := hseq kept.length e (by simp [hes])
    have hbe := he.1
    refine .inr ⟨e, by simp [hes], he, fun x hx hlt => ?_, by rw [hc.last_snd]; exact hend, ?_,
      fun n hn => ?_⟩
    · -- entries before the conflict are among those kept
      obtain ⟨i, hi⟩ := mem_iff_getElem?.1 hx
      have hxseq := hseq i x hi
      have hik : i < kept.length := by omega
      rw [hes, getElem?_append_left hik] at hi
      exact hkept x (mem_of_getElem? hi)
    · simp only [hes, length_append, length_cons, length_take]
      omega
    · rw [entry_cut hbe hend hb' hlog' hn]
      split_ifs with hlt
      · rfl
      · rw [hes, getElem?_append_right (by omega)]
        congr 1
        omega

section

variable {S : List Entry} (hc : Contiguous r) (hS : SentFrom S prevSeq es)
  (hepoch : r.epoch ≤ epoch) (hok : r.prevOk prevSeq prevEpoch)

include hc hS hepoch hok

theorem Truthful.attests (h : r.Truthful sender (.append epoch prevSeq prevEpoch es commit) S
    (max r.baseSeq (prevSeq + es.length))) : r.Attests S prevSeq es := by
  obtain ⟨m, hm, hcase⟩ := append_outcome sender commit hc
    (fun i x hx => (hS i x hx).1) hepoch hok rfl
  obtain ⟨hle, hagree⟩ := h m ((hm m).2 rfl)
  rcases hcase with ⟨hnone, rfl, hentry⟩ | ⟨e, he, hconf, hfirst, hend, rfl, hentry⟩
  · refine ⟨fun n hb hn _ _ => ?_, .inl hle⟩
    rw [← hentry n]
    exact hagree n hb hn
  · refine ⟨fun n hn hlast hle hno => ?_, .inr ⟨e, he, hconf⟩⟩
    have hlt : n < e.seq := Nat.lt_of_not_le fun hge => hno e he hge hconf
    rw [← hagree n hn hle, hentry n hn, if_pos hlt]

theorem Attests.truthful (h : r.Attests S prevSeq es) :
    r.Truthful sender (.append epoch prevSeq prevEpoch es commit) S
      (max r.baseSeq (prevSeq + es.length)) := by
  obtain ⟨m, hm, hcase⟩ := append_outcome sender commit hc
    (fun i x hx => (hS i x hx).1) hepoch hok rfl
  intro k hk
  obtain rfl := (hm k).1 hk
  rcases hcase with ⟨hnone, rfl, hentry⟩ | ⟨e, he, hconf, hfirst, hend, rfl, hentry⟩
  · -- nothing conflicts: the log stays, and so does what it has behind the entries sent
    have hle : r.last.2 ≤ max r.baseSeq (prevSeq + es.length) :=
      h.ends.resolve_right fun ⟨e, he, hce⟩ => hnone e he hce
    refine ⟨hle, fun n hb hn => ?_⟩
    rw [hentry n]
    exact h.kept n hb hn (by omega) fun e he _ => hnone e he
  · refine ⟨le_max_right _ _, fun n hn hle => ?_⟩
    rw [hentry n hn]
    split_ifs with hlt
    · exact h.kept n hn (by omega) hle fun x hx hxn => hfirst x hx (by omega)
    · obtain ⟨i, hi⟩ := mem_iff_getElem?.1 he
      have heseq := (hS i e hi).1
      exact hS.getElem?_eq (by omega) hle

end

/-- **When an acknowledgement is truthful.** -/
theorem truthful_iff {sender : PublicId} {S : List Entry}
    {epoch prevSeq prevEpoch commit : ℕ} (hc : Contiguous r) (hS : SentFrom S prevSeq es)
    (hepoch : r.epoch ≤ epoch) (hok : r.prevOk prevSeq prevEpoch) :
    r.Truthful sender (.append epoch prevSeq prevEpoch es commit) S
        (max r.baseSeq (prevSeq + es.length)) ↔ r.Attests S prevSeq es :=
  ⟨fun h => h.attests hc hS hepoch hok, fun h => h.truthful hc hS hepoch hok⟩

/-- Logs that hold the same epoch at a position are the same up to it. -/
def LogsMatch (r : Raft) (S : List Entry) : Prop :=
  ∀ n e x, r.entry n = some e → S[n - 1]? = some x → e.epoch = x.epoch →
    ∀ k, r.baseSeq < k → k ≤ n → r.entry k = S[k - 1]?

/-- What a follower has before any conflict is the sender's, if their logs match. -/
theorem LogsMatch.entry_eq {S : List Entry} (hmatch : r.LogsMatch S) (hS : SentFrom S prevSeq es)
    (hok : r.prevOk prevSeq prevEpoch)
    (hprev : r.baseSeq < prevSeq → ∃ x, S[prevSeq - 1]? = some x ∧ x.epoch = prevEpoch) {n : ℕ}
    (hn : r.baseSeq < n) (hle : n ≤ prevSeq + es.length)
    (hno : ∀ e ∈ es, e.seq ≤ n → ¬ r.Conflicts e) : r.entry n = S[n - 1]? := by
  rcases le_or_gt n prevSeq with hnp | hnp
  · -- the check compared the epochs at `prevSeq`
    obtain ⟨x, hx, hxe⟩ := hprev (by omega)
    have hat : r.epochAt prevSeq = some prevEpoch := by
      rcases of_decide_eq_true hok with h | h | h
      · omega
      · omega
      · exact h
    unfold epochAt at hat
    rw [if_neg (by omega)] at hat
    obtain ⟨e, he, hee⟩ := Option.map_eq_some_iff.1 hat
    exact hmatch prevSeq e x he hx (hee.trans hxe.symm) n hn hnp
  · -- the entry sent for position `n` does not conflict
    obtain ⟨i, rfl⟩ : ∃ i, n = prevSeq + i + 1 := ⟨n - prevSeq - 1, by omega⟩
    have hi : es[i]? = some es[i] := getElem?_eq_getElem (by omega)
    obtain ⟨hseq, hSi⟩ := hS i _ hi
    have hsame : (r.entry es[i].seq).map Entry.epoch = some es[i].epoch := by
      by_contra hne
      exact hno es[i] (getElem_mem _) (by omega) ⟨by omega, hne⟩
    obtain ⟨e, he, hee⟩ := Option.map_eq_some_iff.1 hsame
    rw [hseq] at he
    exact hmatch _ e es[i] he hSi hee _ hn le_rfl

end Raft

/-- A leader of epoch 1 whose only entry nobody received, after it has followed into epoch 2. -/
def deposed : Raft :=
  { Raft.new nodeA [nodeA, nodeB, nodeC] with epoch := 2, log := [⟨1, 1, [10]⟩] }

/-- The new leader's first entry takes the place of the old one. -/
theorem truthful_deposed :
    deposed.Truthful nodeB (.append 2 0 0 [⟨2, 1, [20]⟩] 0) [⟨2, 1, [20]⟩] 1 := by
  have hS : Raft.SentFrom [⟨2, 1, [20]⟩] 0 [⟨2, 1, [20]⟩] := by
    rintro (_ | i) x hx
    · cases hx
      exact ⟨rfl, rfl⟩
    · simp at hx
  have hc : Contiguous deposed := by
    rintro (_ | i) x hx
    · cases hx
      rfl
    · simp [deposed] at hx
  exact (Raft.truthful_iff hc hS (by decide) (by decide)).2
    ⟨fun n hb _ hle hno => absurd (by decide) (hno ⟨2, 1, [20]⟩ (by simp) (by exact hb)),
      .inr ⟨⟨2, 1, [20]⟩, by simp, by decide⟩⟩

/-- A follower with two entries of epoch 1. -/
def outvoted : Raft := { deposed with log := [⟨1, 1, [10]⟩, ⟨1, 2, [11]⟩] }

/-- The new leader's first heartbeat is answered with a position it has no entry at. -/
theorem deposed_not_truthful : ¬ deposed.Truthful nodeB (.append 2 0 0 [] 0) [] 0 := by
  intro h
  have := (h 1 ⟨2, by decide⟩).1
  omega

/-! ### Acknowledgements along a run -/

/-- A member that acknowledged a position has a log that reaches it, while it stays in the epoch it
acknowledged it in. -/
def Cluster.AcksKept (group : List PublicId) (s : Cluster) : Prop :=
  ∀ id ∈ group, ∀ leader epoch m, (id, leader, .appendResp epoch m true) ∈ s.net →
    (s.nodes id).raft.epoch = epoch → m ≤ (s.nodes id).raft.last.2

variable {group : List PublicId}

theorem GhostInv.length_of_ack {g : Ghost} (h : GhostInv group g)
    {id : PublicId} {m : ℕ} (hack : (id, g.epoch id, m) ∈ g.acks) : m ≤ (g.log id).length := by
  obtain ⟨-, -, hm⟩ := h.inv.ack_le _ _ _ hack
  have hlen : ((g.lead (g.epoch id)).take m).length = m := by rw [length_take]; omega
  rcases h.inv.ack_kept _ _ _ hack _ (List.take_prefix m _) hlen.le with hpre | ⟨d, hd, hd', -⟩
  · have := hpre.length_le
    omega
  · omega

theorem Sim.acksKept {s : Cluster} {g : Ghost} (h : Sim group s g) : s.AcksKept group := by
  rintro id hid leader epoch m hm rfl
  have hrep := h.nodes id hid
  obtain ⟨m', hle, hack⟩ := h.net _ hm rfl
  rw [← hrep.raft.epoch] at hack
  rw [hrep.raft.views.last]
  exact hle.trans (h.ghost.length_of_ack hack)

/-- **Acknowledged positions are kept** in every run whose messages are vouched for. -/
theorem acksKept_of_vouched (hnd : group.Nodup) {evs : List Event}
    {s : Cluster} (hv : Runs.Meets (step group) Cluster.Vouched (init group) evs)
    (hrun : runFrom group evs = some s) : s.AcksKept group := by
  obtain ⟨g, hsim, -⟩ := sim_run hnd (sim_init group) hv hrun
  exact hsim.acksKept

theorem acksKept_commitRun : ∃ s, runFrom [nodeA, nodeB, nodeC] commitRun = some s ∧
    (nodeB, nodeA, .appendResp 1 1 true) ∈ s.net ∧ s.AcksKept [nodeA, nodeB, nodeC] := by
  exact Runs.exists_of_view (fun s => decide ((nodeB, nodeA, .appendResp 1 1 true) ∈ s.net))
    (by decide +kernel) fun s hs hm =>
      ⟨of_decide_eq_true hm, acksKept_of_vouched (by decide) (by decide +kernel) hs⟩

/-- The leader proposes two commands; the third member acknowledges both before the leader, which
has applied the first and compacted it, sends a snapshot at position 1. -/
def snapshotOverLogRun : List Event :=
  [(nodeA, .tickElection), (nodeB, .handle nodeA (.voteReq 1 0 0)),
    (nodeA, .handle nodeB (.voteResp 1 true)), (nodeA, .propose [10]), (nodeA, .propose [20]),
    (nodeC, .handle nodeA (.append 1 0 0 [⟨1, 1, [10]⟩, ⟨1, 2, [20]⟩] 0)),
    (nodeB, .handle nodeA (.append 1 0 0 [⟨1, 1, [10]⟩] 0)),
    (nodeA, .handle nodeB (.appendResp 1 1 true)), (nodeA, .compact 0), (nodeA, .heartbeat),
    (nodeC, .handle nodeA (.installSnapshot 1 1 1 [⟨1, 1, [10]⟩]))]

/-- The snapshot removes the acknowledged second entry. -/
theorem snapshotOverLogRun_forgets :
    ∃ s, runFrom [nodeA, nodeB, nodeC] snapshotOverLogRun = some s ∧
      (nodeC, nodeA, .appendResp 1 2 true) ∈ s.net ∧ (s.nodes nodeC).raft.epoch = 1 ∧
      (s.nodes nodeC).raft.last.2 = 1 ∧ ¬ s.AcksKept [nodeA, nodeB, nodeC] := by
  obtain ⟨s, hs, hnet, hep, hlast⟩ : ∃ s ∈ runFrom [nodeA, nodeB, nodeC] snapshotOverLogRun,
      (nodeC, nodeA, .appendResp 1 2 true) ∈ s.net ∧ (s.nodes nodeC).raft.epoch = 1 ∧
      (s.nodes nodeC).raft.last.2 = 1 := by decide +kernel
  refine ⟨s, hs, hnet, hep, hlast, fun h => ?_⟩
  have := h nodeC (by decide) nodeA 1 2 hnet hep
  omega

end RandallFlare
