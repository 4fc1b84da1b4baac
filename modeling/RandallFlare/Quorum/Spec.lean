import RandallFlare.Quorum.Views

/-!
# What the operations of an instance do

One lemma for each helper of `Raft`: the fields it changes, and what it computes in terms of the
whole log of `Views`.

* `commitScan_cases`, `le_commitScan_of_quorate`: the new commit index is the last position of the
  own epoch that a majority holds;
* `Views.appendEntries`: it leaves the log alone when it extends what was sent, and replaces it by
  what was sent otherwise.
-/

namespace RandallFlare

open EpochLog List Option

variable {D : Type}

namespace Raft

variable {r : Raft} {epoch : ℕ} {a : Action D} {sender : PublicId} {m n : ℕ}

theorem entry_congr {r' : Raft} (hlog : r'.log = r.log) (hb : r'.baseSeq = r.baseSeq) (n : ℕ) :
    r'.entry n = r.entry n := by
  unfold entry
  rw [hlog, hb]

theorem isLeader_iff : r.isLeader ↔ ∃ next matched, r.role = .leader next matched := by
  unfold isLeader
  cases r.role <;> simp

theorem becomeFollower_fst (r : Raft) (epoch : ℕ) : (r.becomeFollower (D := D) epoch).1 =
      { r with
        epoch := max r.epoch epoch
        votedFor := if r.epoch < epoch then none else r.votedFor
        leader := if r.epoch < epoch then none else r.leader
        role := .follower } := by
  unfold becomeFollower
  dsimp only
  split_ifs with h
  · rw [max_eq_right h.le]
  · rw [max_eq_left (not_lt.1 h)]

theorem follow_fst (r : Raft) (sender : PublicId) (epoch : ℕ) : (r.follow (D := D) sender epoch).1 =
      { r with
        epoch := max r.epoch epoch
        votedFor := (if r.epoch < epoch then none else r.votedFor).or (some sender)
        leader := some sender
        role := .follower } := by
  unfold follow
  dsimp only
  rw [becomeFollower_fst]
  cases h : (if r.epoch < epoch then none else r.votedFor) <;> simp

theorem mem_becomeFollower_snd
    (h : a ∈ (r.becomeFollower epoch).2) : a = .persistMeta ∨ a = .lostLeadership := by
  unfold becomeFollower at h
  rw [mem_append] at h
  rcases h with h | h <;> split_ifs at h <;> simp_all

theorem persist_becomeFollower (r : Raft) (epoch : ℕ) :
    .persistMeta ∈ (r.becomeFollower (D := D) epoch).2 ∨
      (r.becomeFollower (D := D) epoch).1.epoch = r.epoch ∧
        (r.becomeFollower (D := D) epoch).1.votedFor = r.votedFor := by
  by_cases h : r.epoch < epoch
  · left
    simp [becomeFollower, h]
  · right
    rw [becomeFollower_fst]
    exact ⟨max_eq_left (not_lt.1 h), if_neg h⟩

theorem persist_follow (r : Raft) (sender : PublicId) (epoch : ℕ) :
    .persistMeta ∈ (r.follow (D := D) sender epoch).2 ∨
      (r.follow (D := D) sender epoch).1.epoch = r.epoch ∧
        (r.follow (D := D) sender epoch).1.votedFor = r.votedFor := by
  unfold follow
  dsimp only
  split_ifs
  · exact .inl (by simp)
  · exact r.persist_becomeFollower epoch

theorem mem_follow_snd
    (h : a ∈ (r.follow sender epoch).2) : a = .persistMeta ∨ a = .lostLeadership := by
  unfold follow at h
  dsimp only at h
  split_ifs at h
  · rw [mem_append, mem_singleton] at h
    rcases h with h | h
    · exact mem_becomeFollower_snd h
    · exact .inl h
  · exact mem_becomeFollower_snd h

theorem handleVoteReq_of_lt (r : Raft) (sender : PublicId)
    {lastEpoch lastSeq : ℕ} (h : r.epoch < epoch) :
    r.handleVoteReq (D := D) sender epoch lastEpoch lastSeq =
      (((r.becomeFollower (D := D) epoch).1.handleVoteReq (D := D) sender epoch lastEpoch lastSeq).1,
        (r.becomeFollower epoch).2 ++
          ((r.becomeFollower (D := D) epoch).1.handleVoteReq sender epoch lastEpoch lastSeq).2) := by
  have hepoch : (r.becomeFollower (D := D) epoch).1.epoch = epoch := by
    rw [becomeFollower_fst]; exact max_eq_right h.le
  unfold handleVoteReq
  simp only [if_pos h, hepoch, lt_irrefl, if_false, nil_append]
  split_ifs <;> rfl

/-! ### The commit index -/

theorem applyCommitted_of_eq (h : r.applied = r.commit) : r.applyCommitted (D := D) = (r, []) := by
  cases r
  simp only at h
  subst h
  simp [applyCommitted, applyLoop]

/-- A majority is known to hold position `n`. -/
def Quorate (r : Raft) (matched : List (PublicId × ℕ)) (n : ℕ) : Prop :=
  r.majority ≤ 1 + matched.countP fun p => n ≤ p.2

theorem Quorate.anti {matched : List (PublicId × ℕ)}
    (h : r.Quorate matched n) (hmn : m ≤ n) : r.Quorate matched m := by
  refine h.trans (Nat.add_le_add_left (countP_mono_left fun p _ hp => ?_) 1)
  simp only [decide_eq_true_eq] at hp ⊢
  omega

theorem le_commitScan (r : Raft) (matched : List (PublicId × ℕ)) (k n candidate : ℕ)
    (h : candidate ≤ n) : candidate ≤ r.commitScan matched k n candidate := by
  induction k generalizing n candidate with
  | zero => exact le_rfl
  | succ k ih =>
    unfold commitScan
    split_ifs with hq he
    · exact h.trans (ih (n + 1) n (by omega))
    · exact ih (n + 1) candidate (by omega)
    · exact le_rfl

/-- The search ends at its candidate or at a quorate position of the own epoch. -/
theorem commitScan_cases (r : Raft) (matched : List (PublicId × ℕ)) (k n candidate : ℕ) :
    r.commitScan matched k n candidate = candidate ∨ r.commitScan matched k n candidate < n + k ∧
      r.Quorate matched (r.commitScan matched k n candidate) ∧
      (r.entry (r.commitScan matched k n candidate)).map Entry.epoch = some r.epoch := by
  induction k generalizing n candidate with
  | zero => exact .inl rfl
  | succ k ih =>
    unfold commitScan
    split_ifs with hq he
    · right
      rcases ih (n + 1) n with heq | ⟨hlt, hrest⟩
      · rw [heq]
        exact ⟨by omega, hq, he⟩
      · exact ⟨by omega, hrest⟩
    · rcases ih (n + 1) candidate with heq | ⟨hlt, hrest⟩
      · exact .inl heq
      · exact .inr ⟨by omega, hrest⟩
    · exact .inl rfl

/-- No quorate position of the own epoch lies past the one found. -/
theorem le_commitScan_of_quorate (r : Raft) (matched : List (PublicId × ℕ)) (k n candidate : ℕ)
    (hn : n ≤ m) (hk : m < n + k) (hq : r.Quorate matched m)
    (he : (r.entry m).map Entry.epoch = some r.epoch) : m ≤ r.commitScan matched k n candidate := by
  induction k generalizing n candidate with
  | zero => omega
  | succ k ih =>
    unfold commitScan
    rw [if_pos (show r.majority ≤ _ from hq.anti hn)]
    rcases hn.eq_or_lt with rfl | hlt
    · rw [if_pos he]
      exact le_commitScan r matched k (n + 1) n (by omega)
    · exact ih (n + 1) _ hlt (by omega)

/-- Nothing changes when no later position of the own epoch is quorate. -/
theorem advanceCommit_eq_self (happ : r.applied = r.commit)
    (h : ∀ next matched, r.role = .leader next matched → ∀ n, r.commit < n →
      r.Quorate matched n → (r.entry n).map Entry.epoch ≠ some r.epoch) :
    r.advanceCommit (D := D) = (r, []) := by
  unfold advanceCommit
  split
  case h_2 => rfl
  rename_i next matched hr
  rw [if_neg, applyCommitted_of_eq happ]
  intro hlt
  rcases commitScan_cases r matched (r.last.2 - r.commit) (r.commit + 1) r.commit with heq | hcase
  · omega
  · exact h next matched hr _ hlt hcase.2.1 hcase.2.2

/-! ### What stays -/

theorem advanceCommit_fst (r : Raft) : ∃ commit applied,
    (r.advanceCommit (D := D)).1 = { r with commit := commit, applied := applied } := by
  unfold advanceCommit
  split
  · dsimp only
    split_ifs
    · exact ⟨_, _, rfl⟩
    · exact ⟨_, _, rfl⟩
  · exact ⟨r.commit, r.applied, rfl⟩

theorem tryWin_fst (r : Raft) : ∃ role, (r.tryWin (D := D)).1 = { r with role := role } := by
  unfold tryWin
  split
  · split_ifs
    · exact ⟨r.role, rfl⟩
    · exact ⟨_, rfl⟩
  · exact ⟨r.role, rfl⟩

theorem foldl_appendEntry_fst (es : List Entry) (r : Raft) (pf : Option ℕ) :
    ∃ log, (es.foldl appendEntry (r, pf)).1 = { r with log := log } := by
  induction es generalizing r pf with
  | nil => exact ⟨r.log, rfl⟩
  | cons e es ih =>
    rw [foldl_cons]
    unfold appendEntry
    dsimp only
    split_ifs
    · exact ih r pf
    · exact ih r pf
    · obtain ⟨log, hlog⟩ := ih { r with log := r.log.take (e.seq - r.baseSeq - 1) ++ [e] }
        (pf.or (some e.seq))
      exact ⟨log, hlog⟩

theorem learnCommit_fst (r : Raft) (n : ℕ) : ∃ commit applied,
    (r.learnCommit (D := D) n).1 = { r with commit := commit, applied := applied } ∧
      r.applied ≤ applied := by
  unfold learnCommit
  split_ifs
  · exact ⟨_, _, rfl, le_max_left _ _⟩
  · exact ⟨r.commit, r.applied, rfl, le_rfl⟩

theorem mem_learnCommit_snd (h : a ∈ (r.learnCommit n).2) : ∃ e, a = .apply e := by
  unfold learnCommit at h
  split_ifs at h
  · obtain ⟨e, -, rfl⟩ := mem_map.1 h
    exact ⟨e, rfl⟩
  · cases h

theorem acceptAppend_fst (r : Raft) (sender : PublicId) (prevSeq prevEpoch : ℕ)
    (entries : List Entry) (commit : ℕ) : ∃ log commit' applied,
    (r.acceptAppend (D := D) sender prevSeq prevEpoch entries commit).1 =
      { r with log := log, commit := commit', applied := applied } := by
  obtain ⟨log, hlog⟩ := foldl_appendEntry_fst entries r none
  obtain ⟨c, a, hcommit, -⟩ := learnCommit_fst (D := D) { r with log := log } commit
  unfold acceptAppend
  dsimp only
  rw [hlog, hcommit]
  split_ifs
  · exact ⟨_, _, _, rfl⟩
  · exact ⟨r.log, r.commit, r.applied, rfl⟩

theorem acceptSnapshot_fst (r : Raft) (sender : PublicId) (lastSeq lastEpoch : ℕ) (data : D) :
    ∃ log baseSeq baseEpoch commit applied, (r.acceptSnapshot sender lastSeq lastEpoch data).1 =
      { r with log := log, baseSeq := baseSeq, baseEpoch := baseEpoch, commit := commit,
               applied := applied } := by
  unfold acceptSnapshot
  split_ifs
  · exact ⟨r.log, r.baseSeq, r.baseEpoch, r.commit, r.applied, rfl⟩
  · exact ⟨_, _, _, _, _, rfl⟩

/-! ### Who grants a vote -/

/-- The action grants a vote. -/
def Grants (a : Action D) : Prop := ∃ p e, a = .send p (.voteResp e true)

/-- What the operations of a leader ask for. -/
def Pulse : Action D → Prop
  | .becameLeader => True
  | .apply _ => True
  | .needSnapshot _ => True
  | .send _ (.append _ _ _ _ _) => True
  | _ => False

theorem Pulse.not_grants (h : Pulse a) : ¬ Grants a := by
  rintro ⟨p, e, rfl⟩
  exact h

theorem pulse_replicateAll (h : a ∈ r.replicateAll) : Pulse a := by
  unfold replicateAll at h
  split at h
  · obtain ⟨p, -, rfl⟩ := mem_map.1 h
    dsimp only
    split_ifs <;> trivial
  · cases h

theorem pulse_advanceCommit (h : a ∈ r.advanceCommit.2) : Pulse a := by
  have happly : ∀ {r : Raft}, a ∈ r.applyCommitted.2 → Pulse a := by
    intro r h
    obtain ⟨e, -, rfl⟩ := mem_map.1 h
    trivial
  unfold advanceCommit at h
  split at h
  · dsimp only at h
    split_ifs at h
    · exact (mem_append.1 h).elim happly pulse_replicateAll
    · exact happly h
  · cases h

theorem pulse_tryWin (h : a ∈ r.tryWin.2) : Pulse a := by
  unfold tryWin at h
  split at h
  · split_ifs at h
    · cases h
    · rcases mem_cons.1 h with rfl | h
      · trivial
      · exact pulse_replicateAll h
  · cases h

theorem not_grants_acceptAppend {prevSeq prevEpoch : ℕ} {entries : List Entry} {commit : ℕ}
    (h : a ∈ (r.acceptAppend sender prevSeq prevEpoch entries commit).2) : ¬ Grants a := by
  rintro ⟨q, e, rfl⟩
  unfold acceptAppend at h
  split_ifs at h
  · simp only [append_assoc, mem_append, mem_toList] at h
    rcases h with h | h | h
    · simp at h
    · obtain ⟨x, hx⟩ := mem_learnCommit_snd h
      cases hx
    · simp at h
  · simp at h

/-! ### The tables of a leader -/

theorem map_fst_updatePeer (p : PublicId) (f : ℕ → ℕ) (ps : List (PublicId × ℕ)) :
    (updatePeer p f ps).map Prod.fst = ps.map Prod.fst := by
  induction ps with
  | nil => rfl
  | cons q ps ih =>
    unfold updatePeer
    split_ifs
    · rfl
    · rw [map_cons, map_cons, ih]

theorem mem_updatePeer {p : PublicId} {f : ℕ → ℕ} {ps : List (PublicId × ℕ)} {q : PublicId × ℕ}
    (h : q ∈ updatePeer p f ps) : q ∈ ps ∨ ∃ n, (p, n) ∈ ps ∧ q = (p, f n) := by
  induction ps with
  | nil => cases h
  | cons x ps ih =>
    unfold updatePeer at h
    split_ifs at h with hx
    · rcases mem_cons.1 h with rfl | h
      · exact .inr ⟨x.2, by rw [← hx]; exact mem_cons_self, by rw [hx]⟩
      · exact .inl (mem_cons_of_mem x h)
    · rcases mem_cons.1 h with rfl | h
      · exact .inl mem_cons_self
      · refine (ih h).imp (mem_cons_of_mem x) ?_
        rintro ⟨n, hn, hq⟩
        exact ⟨n, mem_cons_of_mem x hn, hq⟩

theorem compact_fst (r : Raft) (keepTail : ℕ) : ∃ log baseSeq baseEpoch, (r.compact keepTail).1 =
      { r with log := log, baseSeq := baseSeq, baseEpoch := baseEpoch } ∧
    r.baseSeq ≤ baseSeq ∧ baseSeq ≤ max r.baseSeq r.applied := by
  unfold compact
  dsimp only
  split_ifs with h
  · exact ⟨r.log, r.baseSeq, r.baseEpoch, rfl, le_rfl, le_max_left _ _⟩
  · split
    · exact ⟨r.log, r.baseSeq, r.baseEpoch, rfl, le_rfl, le_max_left _ _⟩
    · exact ⟨_, _, _, rfl, by omega, by omega⟩

end Raft

/-! ### The append loop -/

namespace Raft

variable {r : Raft} {e : Entry} {p : ℕ} {es : List Entry}

/-- The entry sent differs from what the log has at its position, after the snapshot point. -/
def Conflicts (r : Raft) (e : Entry) : Prop :=
  r.baseSeq < e.seq ∧ (r.entry e.seq).map Entry.epoch ≠ some e.epoch

instance (r : Raft) (e : Entry) : Decidable (r.Conflicts e) := by
  unfold Conflicts; infer_instance

theorem appendEntry_of_conflicts (h : r.Conflicts e) (pf : Option ℕ) : appendEntry (r, pf) e =
      ({ r with log := r.log.take (e.seq - r.baseSeq - 1) ++ [e] }, pf.or (some e.seq)) := by
  have hb : ¬ e.seq ≤ r.baseSeq := Nat.not_le.2 h.1
  simp only [appendEntry, if_neg hb, if_neg h.2]

/-- What does not conflict after the snapshot point is there, up to its command. -/
theorem epoch_of_not_conflicts (h : ¬ r.Conflicts e) (hb : r.baseSeq < e.seq) :
    (r.entry e.seq).map Entry.epoch = some e.epoch := by
  by_contra hne
  exact h ⟨hb, hne⟩

theorem appendEntry_of_not_conflicts (h : ¬ r.Conflicts e) (pf : Option ℕ) :
    appendEntry (r, pf) e = (r, pf) := by
  by_cases hb : e.seq ≤ r.baseSeq
  · simp only [appendEntry, if_pos hb]
  · simp only [appendEntry, if_neg hb, if_pos (epoch_of_not_conflicts h (by omega))]

theorem foldl_appendEntry_push (hc : Contiguous r) (f : ℕ) (hp : p = r.baseSeq + r.log.length)
    (hseq : ∀ i x, es[i]? = some x → x.seq = p + i + 1) :
    es.foldl appendEntry (r, some f) = ({ r with log := r.log ++ es }, some f) := by
  induction es generalizing r p with
  | nil => simp
  | cons e es ih =>
    have he : e.seq = p + 1 := hseq 0 e rfl
    have hnone : r.entry e.seq = none := by
      unfold entry
      rw [if_neg (by omega)]
      exact getElem?_eq_none (by omega)
    rw [foldl_cons, appendEntry_of_conflicts ⟨by omega, by simp [hnone]⟩]
    have hpush := hc.push (n := r.log.length) (e := e) le_rfl (by omega)
    rw [take_of_length_le (show r.log.length ≤ e.seq - r.baseSeq - 1 by omega)]
    rw [take_length] at hpush
    rw [some_or, ih hpush (p := p + 1) (by simp; omega)
      (fun i x hx => by have := hseq (i + 1) x hx; omega)]
    simp

/-- **The append loop.**  Without a conflict the log stays; the first conflict truncates it and
everything sent from there on is pushed. -/
theorem foldl_appendEntry (hc : Contiguous r) (pf : Option ℕ)
    (hp : p ≤ r.baseSeq + r.log.length) (hseq : ∀ i x, es[i]? = some x → x.seq = p + i + 1) :
    ((∀ e ∈ es, ¬ r.Conflicts e) ∧ es.foldl appendEntry (r, pf) = (r, pf)) ∨
      ∃ kept e pushed, es = kept ++ e :: pushed ∧ (∀ x ∈ kept, ¬ r.Conflicts x) ∧
        r.Conflicts e ∧ e.seq ≤ r.baseSeq + r.log.length + 1 ∧ es.foldl appendEntry (r, pf) =
          ({ r with log := r.log.take (e.seq - r.baseSeq - 1) ++ e :: pushed },
            pf.or (some e.seq)) := by
  induction es generalizing p with
  | nil => exact .inl ⟨by simp, rfl⟩
  | cons e es ih =>
    have he : e.seq = p + 1 := hseq 0 e rfl
    have hseq' : ∀ i x, es[i]? = some x → x.seq = p + 1 + i + 1 := fun i x hx => by
      have := hseq (i + 1) x hx
      omega
    rw [foldl_cons]
    by_cases hce : r.Conflicts e
    · rw [appendEntry_of_conflicts hce]
      have hb := hce.1
      have hn : e.seq - r.baseSeq - 1 ≤ r.log.length := by omega
      have hpush := hc.push (e := e) hn (by omega)
      refine .inr ⟨[], e, es, rfl, by simp, hce, by omega, ?_⟩
      obtain ⟨f, hf⟩ : ∃ f, pf.or (some e.seq) = some f := by cases pf <;> exact ⟨_, rfl⟩
      rw [hf, foldl_appendEntry_push hpush f (p := p + 1) (by simp; omega) hseq']
      simp
    · rw [appendEntry_of_not_conflicts hce]
      have hlen : p + 1 ≤ r.baseSeq + r.log.length := by
        by_cases hb : r.baseSeq < e.seq
        · obtain ⟨a, ha, -⟩ := map_eq_some_iff.1 (epoch_of_not_conflicts hce hb)
          unfold entry at ha
          rw [if_neg (by omega)] at ha
          have := (List.getElem?_eq_some_iff.1 ha).1
          omega
        · omega
      rcases ih hlen hseq' with ⟨hnone, hlog⟩ | ⟨kept, x, pushed, rfl, hkept, hx⟩
      · refine .inl ⟨?_, hlog⟩
        rintro y (_ | ⟨_, hy⟩)
        · exact hce
        · exact hnone y hy
      · refine .inr ⟨e :: kept, x, pushed, rfl, ?_, hx⟩
        rintro y (_ | ⟨_, hy⟩)
        · exact hce
        · exact hkept y hy

theorem contiguous_foldl_appendEntry (hc : Contiguous r) (pf : Option ℕ)
    (hp : p ≤ r.baseSeq + r.log.length) (hseq : ∀ i x, es[i]? = some x → x.seq = p + i + 1) :
    Contiguous (es.foldl appendEntry (r, pf)).1 := by
  rcases foldl_appendEntry hc pf hp hseq with ⟨-, heq⟩ | ⟨kept, e, pushed, rfl, -, he, hend, heq⟩
  · rw [heq]
    exact hc
  · rw [heq]
    have hb := he.1
    have heseq := hseq kept.length e (by simp)
    refine hc.extend (by omega) fun i x hx => ?_
    have := hseq (kept.length + i) x (by rw [getElem?_append_right (by omega)]; simpa using hx)
    omega

end Raft

namespace Views

open Raft

variable {r : Raft} {L M K es : List Entry}

theorem prefix_of_not_conflicts (h : Views r L) (hM : Numbered M) (hK : K <+: L)
    (hKM : K ++ es <+: M) (hno : ∀ e ∈ es, ¬ r.Conflicts e)
    (hbase : ∀ P, P <+: M → P.length ≤ r.baseSeq → P <+: L)
    (hagree : ∀ P a b, P ++ [a] <+: L → P ++ [b] <+: M → a.epoch = b.epoch → a = b) :
    K ++ es <+: L := by
  induction es generalizing K with
  | nil => simpa using hK
  | cons e es ih =>
    rw [append_cons] at hKM ⊢
    have hpre : K ++ [e] <+: M := (prefix_append _ es).trans hKM
    have hseq : e.seq = K.length + 1 := hM.anti hpre K.length e (by simp)
    refine ih ?_ hKM fun x hx => hno x (mem_cons_of_mem e hx)
    by_cases hb : e.seq ≤ r.baseSeq
    · -- below the snapshot point: already part of the log
      exact hbase _ hpre (by simp; omega)
    · have hsame := epoch_of_not_conflicts (hno e mem_cons_self) (by omega)
      rw [h.entry_of_lt (by omega), hseq, Nat.add_sub_cancel] at hsame
      obtain ⟨a, ha, hep⟩ := map_eq_some_iff.1 hsame
      have hKa : K ++ [a] <+: L := by
        rw [prefix_iff_eq_take.1 hK]
        simpa [take_add_one, ha] using take_prefix (K.length + 1) L
      rwa [← hagree K a e hKa hpre hep]

/-- **The append loop, on whole logs.**  The entries sent are those of `M` after a common beginning
`K`.  When `M` is already there nothing changes, otherwise the log becomes `M`: the first entry that
differs truncates it. -/
theorem appendEntries (h : Views r L) (hM : Numbered M)
    (hMK : M = K ++ es) (hK : K <+: L) (pf : Option ℕ)
    (hbase : ∀ P, P <+: M → P.length ≤ r.baseSeq → P <+: L)
    (hagree : ∀ P a b, P ++ [a] <+: L → P ++ [b] <+: M → a.epoch = b.epoch → a = b) :
    ∃ log L', (es.foldl appendEntry (r, pf)).1 = { r with log := log } ∧
      Views { r with log := log } L' ∧ (M <+: L ∧ L' = L ∨ ¬ M <+: L ∧ L' = M) := by
  have hlen : K.length ≤ r.baseSeq + r.log.length := by
    have := hK.length_le
    rw [h.log, length_drop]
    omega
  have hseq : ∀ i x, es[i]? = some x → x.seq = K.length + i + 1 := fun i x hx =>
    hM (K.length + i) x (by rw [hMK, getElem?_append_right (by omega)]; simpa using hx)
  rcases foldl_appendEntry h.contiguous pf hlen hseq with
    ⟨hno, heq⟩ | ⟨kept, e, pushed, rfl, hkept, he, -, heq⟩
  · exact ⟨r.log, L, by rw [heq], h, .inl ⟨hMK ▸ h.prefix_of_not_conflicts hM hK
      (by rw [hMK]) hno hbase hagree, rfl⟩⟩
  · -- the first entry that differs: from here on the log is the one sent
    have hb := he.1
    have hpre : K ++ kept <+: L := h.prefix_of_not_conflicts hM hK
      (by rw [hMK]; simp) hkept hbase hagree
    have heseq : e.seq = (K ++ kept).length + 1 := by
      rw [hseq kept.length e (by simp), length_append]
    have hcut : L.take (K ++ kept).length = K ++ kept := (prefix_iff_eq_take.1 hpre).symm
    refine ⟨_, M, by rw [heq], ?_, .inr ⟨fun hin => ?_, rfl⟩⟩
    · have hviews := h.truncate (n := (K ++ kept).length) (by omega)
      rw [hcut] at hviews
      have := hviews.append (show Numbered (K ++ kept ++ e :: pushed) by simpa [hMK] using hM)
      rw [show e.seq - r.baseSeq - 1 = (K ++ kept).length - r.baseSeq by omega]
      simpa [hMK] using this
    · obtain ⟨T, rfl⟩ := hin
      apply he.2
      rw [h.entry_of_lt hb, heseq, hMK]
      simp

end Views

end RandallFlare
