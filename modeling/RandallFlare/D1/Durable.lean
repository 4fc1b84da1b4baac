import RandallFlare.Quorum.Ballot

/-!
# The durable state mirrors the instance

The log is persisted by `from_seq` while snapshots, compaction and truncation move the beginning
and the end of it.  `Mirrors` says that the store holds exactly what the instance holds, `Settles`
that it does whenever a message is sent and at the end of a list of effects.

Handling an `InstallSnapshot` is the one operation that can break it: the instance's log becomes
empty, but `PersistLog` removes only the keys past the snapshot, and whatever the log held before
stays in the store.  `mirrors_iff` says that nothing else does.
-/

namespace RandallFlare

open Replica List

variable {n : ℕ} {P : Store → Prop} {as : List (Action (List Entry))} {a : Action (List Entry)}
  {sender : PublicId} {epoch lastEpoch lastSeq prevSeq prevEpoch : ℕ} {entries : List Entry}

/-! ### The log table -/

/-- The table that holds the entries of `log` under their numbers. -/
def table (log : List Entry) : List (ℕ × Entry) := log.map fun e => (e.seq, e)

namespace Store

variable {t : List (ℕ × Entry)}

theorem foldl_insertEntry {tail : List Entry}
    (hsorted : tail.Pairwise fun a b => a.seq < b.seq) (h : ∀ kv ∈ t, ∀ e ∈ tail, kv.1 < e.seq) :
    tail.foldl (fun t e => SortedMap.insertEntry e.seq e t) t = t ++ table tail := by
  induction tail generalizing t with
  | nil => simp [table]
  | cons e tail ih =>
    rw [pairwise_cons] at hsorted
    rw [foldl_cons, SortedMap.insertEntry_of_forall_lt fun kv hkv => h kv hkv e mem_cons_self,
      ih hsorted.2]
    · simp [table]
    · intro kv hkv x hx
      rcases mem_append.1 hkv with hkv | hkv
      · exact h kv hkv x (mem_cons_of_mem e hx)
      · rw [mem_singleton.1 hkv]
        exact hsorted.1 x hx

theorem filter_table (log : List Entry) (p : ℕ → Bool) :
    ((table log).filter fun kv => p kv.1) = table (log.filter fun e => p e.seq) := by
  unfold table
  rw [filter_map]
  rfl

theorem loadD1Log_of_table {s : Store} {log : List Entry} (h : s.d1Log = table log) :
    s.loadD1Log = log := by
  unfold loadD1Log table at *
  rw [h, map_map]
  exact map_id _

end Store

variable {r : Raft}

theorem Contiguous.pairwise (h : Contiguous r) : r.log.Pairwise fun a b => a.seq < b.seq := by
  rw [pairwise_iff_getElem]
  intro i j hi hj hij
  have h₁ := h i _ (getElem?_eq_getElem hi)
  have h₂ := h j _ (getElem?_eq_getElem hj)
  omega

/-- Persisting from `f` on a table that agrees with the log before `f`. -/
theorem Store.putD1Log_table {s : Store} {log : List Entry} {f : ℕ}
    (h : s.d1Log = table log) (hc : Contiguous r) (hf : r.baseSeq < f)
    (hlog : (log.filter fun e => ¬ f ≤ e.seq) = r.log.take (f - r.baseSeq - 1)) :
    (s.putD1Log f (r.log.filter fun e => f ≤ e.seq)).d1Log = table r.log := by
  unfold Store.putD1Log
  rw [h, Store.filter_table log fun k => ¬ f ≤ k, hlog, Store.foldl_insertEntry]
  · rw [hc.filter_ge hf]
    unfold table
    rw [← map_append, take_append_drop]
  · exact hc.pairwise.filter _
  · intro kv hkv e he
    obtain ⟨x, hx, rfl⟩ := mem_map.1 hkv
    rw [← hc.filter_lt hf] at hx
    have h₁ := of_decide_eq_true (mem_filter.1 hx).2
    have h₂ := of_decide_eq_true (mem_filter.1 he).2
    omega

/-! ### Effects on the store -/

def Raft.metaRecord (r : Raft) : ℕ × Option PublicId × ℕ × ℕ :=
  (r.epoch, r.votedFor, r.baseSeq, r.baseEpoch)

/-- The store holds exactly what the instance holds. -/
structure Store.Mirrors (s : Store) (r : Raft) : Prop where
  meta_eq : s.loadD1Meta = r.metaRecord
  log_eq : s.loadD1Log = r.log

/-- `P` holds of the store at every `Send` among the effects of the instance `r`, and after them. -/
def Settles (P : Store → Prop) (r : Raft) : Store → List Effect → Prop
  | s, [] => P s
  | s, .act .persistMeta :: as =>
      Settles P r (s.putD1Meta r.epoch r.votedFor r.baseSeq r.baseEpoch) as
  | s, .act (.persistLog f) :: as => Settles P r (s.putD1Log f (r.log.filter fun e => f ≤ e.seq)) as
  | s, .act (.send _ _) :: as => P s ∧ Settles P r s as
  | s, .compactLog n :: as => Settles P r (s.compactD1Log n) as
  | s, _ :: as => Settles P r s as

theorem settles_iff (P : Store → Prop) (d : Replica) (as : List Effect) :
    Settles P d.raft d.store as ↔ (∀ before p m after, as = before ++ .act (.send p m) :: after →
        P (d.execute before).1.store) ∧ P (d.execute as).1.store := by
  induction as generalizing d with
  | nil =>
    refine ⟨fun h => ⟨fun before p m after heq => ?_, h⟩, fun h => h.2⟩
    simp at heq
  | cons a as ih =>
    -- the effects after the first, and a `Send` in first place
    have hsplit : ∀ {Q : List Effect → Prop},
        (∀ before p m after, a :: as = before ++ .act (.send p m) :: after → Q before) ↔
          ((∃ p m, a = .act (.send p m)) → Q []) ∧
          ∀ before p m after, as = before ++ .act (.send p m) :: after → Q (a :: before) := by
      intro Q
      constructor
      · intro h
        constructor
        · rintro ⟨p, m, ha⟩
          exact h [] p m as (by rw [ha]; rfl)
        · exact fun before p m after heq => h (a :: before) p m after (by rw [heq]; rfl)
      · rintro h (_ | ⟨b, before⟩) p m after heq
        · obtain ⟨ha, -⟩ := cons.inj heq
          exact h.1 ⟨p, m, ha⟩
        · obtain ⟨rfl, htail⟩ := cons.inj heq
          exact h.2 before p m after htail
    have ih := ih (d.executeOne a).1
    rw [d.executeOne_raft a] at ih
    rw [hsplit, and_assoc]
    refine Iff.trans ?_ (and_congr_right fun _ => ih)
    by_cases hsend : ∃ p m, a = .act (.send p m)
    · obtain ⟨p, m, rfl⟩ := hsend
      exact ⟨fun h => ⟨fun _ => h.1, h.2⟩, fun h => ⟨h.1 ⟨p, m, rfl⟩, h.2⟩⟩
    · have hstep : Settles P d.raft d.store (a :: as) ↔
          Settles P d.raft (d.executeOne a).1.store as := by
        rcases a with a | n
        · cases a <;> first | rfl | exact absurd ⟨_, _, rfl⟩ hsend
        · rfl
      exact ⟨fun h => ⟨fun hs => absurd hs hsend, hstep.1 h⟩, fun h => hstep.2 h.2⟩

/-- Actions that leave the store alone. -/
def Storeless : Action (List Entry) → Prop
  | .persistMeta => False
  | .persistLog _ => False
  | _ => True

theorem Raft.Pulse.storeless (h : Raft.Pulse a) : Storeless a := by
  cases a <;> first | exact h | trivial

theorem settles_of_storeless {s : Store} (has : ∀ a ∈ as, Storeless a) (h : P s) :
    Settles P r s (as.map .act) := by
  induction as with
  | nil => exact h
  | cons a as ih =>
    have ha := has a mem_cons_self
    have ih := ih fun b hb => has b (mem_cons_of_mem a hb)
    cases a with
    | persistMeta => exact ha.elim
    | persistLog f => exact ha.elim
    | send p m => exact ⟨h, ih⟩
    | _ => exact ih

/-- Learning of an epoch before the rest of an operation: the table stays, and if the epoch or the
vote was news the meta record is that of the final instance. -/
theorem settles_silent_append {s : Store} {q : List (Action (List Entry))} {as : List Effect}
    (hq : ∀ a ∈ q, a = .persistMeta ∨ a = .lostLeadership)
    (h : ∀ s', s'.d1Log = s.d1Log → (.persistMeta ∈ q ∨ s.loadD1Meta = r.metaRecord →
      s'.loadD1Meta = r.metaRecord) → Settles P r s' as) : Settles P r s (q.map .act ++ as) := by
  induction q generalizing s with
  | nil => exact h s rfl fun hm => hm.resolve_left not_mem_nil
  | cons a q ih =>
    have hq' := fun b hb => hq b (mem_cons_of_mem a hb)
    rcases hq a mem_cons_self with rfl | rfl
    · exact ih (s := s.putD1Meta _ _ _ _) hq' fun s' hl hm => h s' hl fun _ => hm (.inr rfl)
    · exact ih hq' fun s' hl hm => h s' hl fun hc => hm (hc.imp_left fun hin => by simpa using hin)

/-! ### Each operation -/

/-- The store holds the instance's meta record and the table of its log. -/
structure Store.Holds (s : Store) (r : Raft) : Prop where
  meta_eq : s.loadD1Meta = r.metaRecord
  log_eq : s.d1Log = table r.log

theorem Store.Holds.mirrors {s : Store} (h : s.Holds r) : s.Mirrors r :=
  ⟨h.meta_eq, loadD1Log_of_table h.log_eq⟩

/-- The log of the instance is in order, and its snapshot point is applied. -/
structure Raft.Tidy (r : Raft) : Prop where
  contiguous : Contiguous r
  base_le : r.baseSeq ≤ r.applied

/-- What an operation leaves behind: an instance in order, and a store that held it whenever a
message was sent and holds it at the end. -/
def Tidily (s : Store) (out : Raft × List Effect) : Prop :=
  out.1.Tidy ∧ Settles (·.Holds out.1) out.1 s out.2

variable {r : Raft} {s : Store} {op : Op}

/-- Operations that change neither log nor snapshot point, and no vote or epoch. -/
theorem Raft.Tidy.tidily {r' : Raft} (h : r.Tidy)
    (hs : s.Holds r) (hlog : r'.log = r.log) (hmeta : r'.metaRecord = r.metaRecord)
    (happ : r.applied ≤ r'.applied) (has : ∀ a ∈ as, Storeless a) : Tidily s (r', as.map .act) := by
  have hbase : r'.baseSeq = r.baseSeq := congrArg (fun m => m.2.2.1) hmeta
  refine ⟨⟨fun i e he => ?_, ?_⟩, settles_of_storeless has ⟨hmeta ▸ hs.meta_eq, hlog ▸ hs.log_eq⟩⟩
  · rw [hbase]
    exact h.contiguous i e (hlog ▸ he)
  · simp only [hbase]
    exact h.base_le.trans happ

theorem Raft.Tidy.tidily_self (h : r.Tidy) (hs : s.Holds r) : Tidily s (r, []) := by
  exact Raft.Tidy.tidily h hs rfl rfl le_rfl (forall_mem_nil Storeless)

theorem Raft.applied_le_advanceCommit (r : Raft) :
    r.applied ≤ (r.advanceCommit (D := List Entry)).1.applied := by
  unfold Raft.advanceCommit
  split
  · dsimp only
    split_ifs
    · exact le_max_left _ _
    · exact le_max_left _ _
  · exact le_rfl

/-- Answering a vote request of an epoch that is not news; a grant persists the vote itself. -/
theorem tidily_handleVoteReq_of_le (h : r.Tidy)
    (hlog : s.d1Log = table r.log) (he : epoch ≤ r.epoch)
    (hmeta : s.loadD1Meta = r.metaRecord ∨ s.loadD1Meta =
      (r.handleVoteReq (D := List Entry) sender epoch lastEpoch lastSeq).1.metaRecord) :
    Tidily s (effects (r.handleVoteReq sender epoch lastEpoch lastSeq)) := by
  unfold Raft.handleVoteReq at hmeta ⊢
  simp only [if_neg (not_lt.2 he), nil_append, decide_eq_true_eq] at hmeta ⊢
  split_ifs at hmeta ⊢
  · exact ⟨⟨h.contiguous, h.base_le⟩, ⟨rfl, hlog⟩, ⟨rfl, hlog⟩⟩
  · have hs : s.Holds r := ⟨hmeta.elim (fun h => h) (fun h => h), hlog⟩
    exact h.tidily hs rfl rfl le_rfl (by simp [Storeless])

section

variable (h : r.Tidy) (hs : s.Holds r)

include h hs

theorem tidily_tryWin : Tidily s (effects r.tryWin) := by
  obtain ⟨role, heq⟩ := r.tryWin_fst (D := List Entry)
  exact h.tidily hs (by rw [heq]) (by rw [heq]; rfl) (by rw [heq])
    fun a ha => (Raft.pulse_tryWin ha).storeless

theorem tidily_advanceCommit : Tidily s (effects r.advanceCommit) := by
  obtain ⟨c, a, heq⟩ := r.advanceCommit_fst (D := List Entry)
  exact h.tidily hs (by rw [heq]) (by rw [heq]; rfl) r.applied_le_advanceCommit
    fun a ha => (Raft.pulse_advanceCommit ha).storeless

theorem tidily_tickElection : Tidily s (effects r.tickElection) := by
  unfold Raft.tickElection
  split_ifs with hl
  · exact h.tidily_self hs
  obtain ⟨role, heq⟩ := Raft.tryWin_fst (D := List Entry) { r with
    epoch := r.epoch + 1
    votedFor := some r.me
    leader := none
    role := .candidate [r.me] }
  refine ⟨?_, ?_⟩
  · rw [heq]
    exact ⟨h.contiguous, h.base_le⟩
  · refine settles_of_storeless (s := s.putD1Meta _ _ _ _) (fun a ha => ?_) ⟨rfl, ?_⟩
    · rcases mem_append.1 ha with ha | ha
      · obtain ⟨p, -, rfl⟩ := mem_map.1 ha
        trivial
      · exact (Raft.pulse_tryWin ha).storeless
    · rw [heq]
      exact hs.log_eq

theorem tidily_becomeFollower (epoch : ℕ) : Tidily s (effects (r.becomeFollower epoch)) := by
  refine ⟨?_, ?_⟩
  · rw [Raft.becomeFollower_fst]
    exact ⟨h.contiguous, h.base_le⟩
  · rw [← append_nil (effects _).2]
    refine settles_silent_append (fun a ha => Raft.mem_becomeFollower_snd ha)
      (fun s' hlog hmeta => ⟨hmeta ?_, ?_⟩)
    · refine (r.persist_becomeFollower epoch).imp_right ?_
      rintro ⟨he, hv⟩
      rw [hs.meta_eq, Raft.metaRecord, Raft.metaRecord, he, hv, Raft.becomeFollower_fst]
    · rw [hlog, hs.log_eq, Raft.becomeFollower_fst]

theorem tidily_handleVoteReq :
    Tidily s (effects (r.handleVoteReq sender epoch lastEpoch lastSeq)) := by
  rcases lt_or_ge r.epoch epoch with hlt | hle
  · rw [Raft.handleVoteReq_of_lt r sender hlt, effects_append]
    obtain ⟨hlog, htidy⟩ : (r.becomeFollower (D := List Entry) epoch).1.log = r.log ∧
        (r.becomeFollower (D := List Entry) epoch).1.Tidy := by
      rw [Raft.becomeFollower_fst]
      exact ⟨rfl, h.contiguous, h.base_le⟩
    have hle : epoch ≤ (r.becomeFollower (D := List Entry) epoch).1.epoch := by
      rw [Raft.becomeFollower_fst]
      exact le_max_right _ _
    have hrest : ∀ s' : Store, s'.d1Log = s.d1Log → s'.loadD1Meta =
        ((r.becomeFollower (D := List Entry) epoch).1.handleVoteReq (D := List Entry) sender epoch
          lastEpoch lastSeq).1.metaRecord → _ := fun s' hl hm =>
      tidily_handleVoteReq_of_le (s := s') htidy (by rw [hl, hs.log_eq, hlog]) hle (.inr hm)
    refine ⟨(hrest (s.putD1Meta _ _ _ _) rfl rfl).1, settles_silent_append
      (fun a ha => Raft.mem_becomeFollower_snd ha) fun s' hl hm => (hrest s' hl (hm (.inl ?_))).2⟩
    simp [Raft.becomeFollower, hlt]
  · exact tidily_handleVoteReq_of_le h hs.log_eq hle (.inl hs.meta_eq)

theorem tidily_handleVoteResp {granted : Bool} :
    Tidily s (effects (r.handleVoteResp sender epoch granted)) := by
  unfold Raft.handleVoteResp
  split_ifs
  · exact tidily_becomeFollower h hs epoch
  · exact h.tidily_self hs
  · split
    · exact tidily_tryWin (r := { r with role := _ }) ⟨h.contiguous, h.base_le⟩
        ⟨hs.meta_eq, hs.log_eq⟩
    · exact tidily_tryWin h hs

theorem tidily_handleAppendResp {matchSeq : ℕ} {ok : Bool} :
    Tidily s (effects (r.handleAppendResp sender epoch matchSeq ok)) := by
  unfold Raft.handleAppendResp
  split_ifs
  · exact tidily_becomeFollower h hs epoch
  · exact h.tidily_self hs
  all_goals
    split
    case h_2 => exact h.tidily_self hs
  · exact tidily_advanceCommit (r := { r with role := _ }) ⟨h.contiguous, h.base_le⟩
      ⟨hs.meta_eq, hs.log_eq⟩
  · dsimp only [effects]
    exact h.tidily hs rfl rfl le_rfl fun a ha => (Raft.pulse_replicateAll ha).storeless

end

theorem Raft.Tidy.follow (h : r.Tidy) (sender : PublicId) (epoch : ℕ) {r₁ : Raft}
    (hr₁ : (r.follow (D := List Entry) sender epoch).1 = r₁) : r₁.Tidy ∧ r₁.log = r.log ∧
      r₁.applied = r.applied ∧ r₁.baseSeq = r.baseSeq ∧ r₁.baseEpoch = r.baseEpoch := by
  rw [← hr₁, Raft.follow_fst]
  exact ⟨⟨h.contiguous, h.base_le⟩, rfl, rfl, rfl, rfl⟩

theorem tidily_follow (out : Raft × List (Action (List Entry))) (hs : s.Holds r)
    (htidy : out.1.Tidy) (hepoch : out.1.epoch = (r.follow (D := List Entry) sender epoch).1.epoch ∧
      out.1.votedFor = (r.follow (D := List Entry) sender epoch).1.votedFor)
    (hbase : out.1.baseSeq = r.baseSeq ∧ out.1.baseEpoch = r.baseEpoch)
    (h : ∀ s' : Store, s'.d1Log = table r.log → s'.loadD1Meta = out.1.metaRecord →
      Settles (·.Holds out.1) out.1 s' (out.2.map .act)) :
    Tidily s (out.1, (r.follow sender epoch).2.map .act ++ out.2.map .act) := by
  refine ⟨htidy, settles_silent_append (fun a ha => Raft.mem_follow_snd ha)
    fun s' hl hm => h s' (by rw [hl, hs.log_eq]) (hm ?_)⟩
  refine (r.persist_follow sender epoch).imp_right ?_
  rintro ⟨he, hv⟩
  rw [hs.meta_eq, Raft.metaRecord, Raft.metaRecord, hepoch.1, hepoch.2, he, hv, hbase.1, hbase.2]

theorem Raft.le_of_prevOk
    (hok : r.prevOk prevSeq prevEpoch) : prevSeq ≤ r.baseSeq + r.log.length := by
  rcases of_decide_eq_true hok with h0 | hlt | hat
  · omega
  · omega
  · unfold Raft.epochAt Raft.entry at hat
    split_ifs at hat with h₁ h₂
    · omega
    · cases hat
    · obtain ⟨e, he, -⟩ := Option.map_eq_some_iff.1 hat
      have := (List.getElem?_eq_some_iff.1 he).1
      omega

/-- The entries of an `Append` carry the numbers after `prevSeq`, as `replicate_all` sends them. -/
def Op.Consecutive : Op → Prop
  | .handle _ (.append _ prevSeq _ entries _) =>
      entries.map Entry.seq = range' (prevSeq + 1) entries.length
  | _ => True

instance (op : Op) : Decidable op.Consecutive := by
  unfold Op.Consecutive
  split <;> infer_instance

theorem seq_of_consecutive {i : ℕ} {e : Entry}
    (h : entries.map Entry.seq = range' (prevSeq + 1) entries.length)
    (he : entries[i]? = some e) : e.seq = prevSeq + i + 1 := by
  have hi := congrArg (·[i]?) h
  simp only [getElem?_map, he, Option.map_some] at hi
  obtain ⟨hlt, heq⟩ := List.getElem?_eq_some_iff.1 hi.symm
  simp at heq
  omega

/-- The rest of an append: the changed part of the log is persisted before the answer. -/
theorem settles_acceptAppend (sender : PublicId) (prevEpoch commit : ℕ) (h : r.Tidy)
    (hseq : entries.map Entry.seq = range' (prevSeq + 1) entries.length)
    (hlog : s.d1Log = table r.log) (hmeta : s.loadD1Meta = r.metaRecord) :
    Tidily s (effects (r.acceptAppend sender prevSeq prevEpoch entries commit)) := by
  unfold Raft.acceptAppend
  by_cases hok : r.prevOk prevSeq prevEpoch
  case neg =>
    rw [if_pos hok]
    exact h.tidily ⟨hmeta, hlog⟩ rfl rfl le_rfl (by simp [Storeless])
  rw [if_neg (not_not.2 hok)]
  have hnext : ∀ i x, entries[i]? = some x → x.seq = prevSeq + i + 1 :=
    fun _ _ => seq_of_consecutive hseq
  have hcont := Raft.contiguous_foldl_appendEntry h.contiguous none (Raft.le_of_prevOk hok) hnext
  have hcase := Raft.foldl_appendEntry h.contiguous none (Raft.le_of_prevOk hok) hnext
  obtain ⟨log, hfold⟩ := Raft.foldl_appendEntry_fst entries r none
  simp only [hfold] at hcont ⊢
  -- moving the commit index changes neither the log nor the meta record
  obtain ⟨c, a, hcommit, happ⟩ := Raft.learnCommit_fst (D := List Entry) { r with log := log } commit
  rw [hcommit]
  refine ⟨⟨hcont, h.base_le.trans happ⟩, ?_⟩
  have hrest : ∀ s' : Store, s'.loadD1Meta = r.metaRecord → s'.d1Log = table log → ∀ n,
      Settles (·.Holds { r with log := log, commit := c, applied := a })
        { r with log := log, commit := c, applied := a } s'
        (((Raft.learnCommit { r with log := log } commit).2 ++
          [Action.send sender (.appendResp r.epoch n true)]).map .act) := by
    intro s' hm hl n
    refine settles_of_storeless (fun x hx => ?_) ⟨hm, hl⟩
    rcases mem_append.1 hx with hx | hx
    · obtain ⟨e, rfl⟩ := Raft.mem_learnCommit_snd hx
      trivial
    · rw [mem_singleton.1 hx]
      trivial
  dsimp only
  rcases hcase with ⟨-, heq⟩ | ⟨_, e, pushed, -, -, he, hend, heq⟩ <;>
    obtain rfl := congrArg Raft.log (hfold.symm.trans (congrArg Prod.fst heq))
  · rw [heq, Option.map_none, Option.toList_none, nil_append]
    exact hrest s hmeta hlog _
  · rw [heq, Option.none_or, Option.map_some, Option.toList_some, append_assoc,
      map_append]
    refine hrest (s.putD1Log e.seq _) hmeta ?_ _
    refine Store.putD1Log_table (r := { r with log := _ }) hlog hcont he.1 ?_
    rw [h.contiguous.filter_lt he.1, take_append_of_le_length (by simp; omega), take_take, min_self]

theorem tidily_handleAppend {commit : ℕ} (h : r.Tidy) (hs : s.Holds r)
    (hseq : entries.map Entry.seq = range' (prevSeq + 1) entries.length) :
    Tidily s (effects (r.handleAppend sender epoch prevSeq prevEpoch entries commit)) := by
  unfold Raft.handleAppend
  split_ifs with hlt
  · exact h.tidily hs rfl rfl le_rfl (by simp [Storeless])
  rw [effects_append]
  obtain ⟨htidy, hlog, -, hbase, hbe⟩ := h.follow sender epoch rfl
  obtain ⟨log, c, a, heq⟩ := (r.follow (D := List Entry) sender epoch).1.acceptAppend_fst
    (D := List Entry) sender prevSeq prevEpoch entries commit
  have hrest : ∀ s' : Store, s'.d1Log = table r.log → s'.loadD1Meta =
      ((r.follow (D := List Entry) sender epoch).1.acceptAppend (D := List Entry) sender prevSeq
        prevEpoch entries commit).1.metaRecord → _ := fun s' hl hm =>
    settles_acceptAppend sender prevEpoch commit htidy hseq
      (hlog ▸ hl) (by rw [hm, heq]; rfl)
  refine tidily_follow (Raft.acceptAppend _ sender prevSeq prevEpoch entries commit) hs
    (hrest ((Store.mk none (table r.log)).putD1Meta _ _ _ _) rfl rfl).1 ?_ ?_
    fun s' hl hm => (hrest s' hl hm).2
  · rw [heq]
    exact ⟨rfl, rfl⟩
  · rw [heq]
    exact ⟨hbase, hbe⟩

/-- The message makes the instance install a snapshot over entries it still holds. -/
def Op.InstallsOverLog (r : Raft) : Op → Prop
  | .handle _ (.installSnapshot epoch lastSeq _ _) =>
      r.epoch ≤ epoch ∧ r.applied < lastSeq ∧ r.log ≠ []
  | _ => False

instance (r : Raft) (op : Op) : Decidable (op.InstallsOverLog r) := by
  unfold Op.InstallsOverLog
  split <;> infer_instance

section

variable {sender : PublicId} {epoch lastSeq lastEpoch : ℕ} {data : List Entry}

theorem tidily_handleInstallSnapshot (h : r.Tidy) (hs : s.Holds r)
    (hno : ¬ (r.epoch ≤ epoch ∧ r.applied < lastSeq ∧ r.log ≠ [])) :
    Tidily s (effects (r.handleInstallSnapshot sender epoch lastSeq lastEpoch data)) := by
  unfold Raft.handleInstallSnapshot
  split_ifs with hlt
  · exact h.tidily hs rfl rfl le_rfl (by simp [Storeless])
  rw [effects_append]
  obtain ⟨htidy, hlog, happ, hbase, hbe⟩ := h.follow sender epoch rfl
  unfold Raft.acceptSnapshot
  rw [happ]
  by_cases hstale : lastSeq ≤ r.applied
  · simp only [if_pos hstale]
    exact tidily_follow (_, [_]) hs htidy ⟨rfl, rfl⟩ ⟨hbase, hbe⟩ fun s' hl hm =>
      settles_of_storeless (by simp [Storeless]) ⟨hm, hlog ▸ hl⟩
  · have hnil : r.log = [] := by
      by_contra hne
      exact hno ⟨not_lt.1 hlt, not_le.1 hstale, hne⟩
    simp only [if_neg hstale]
    refine ⟨⟨fun i e he => by simp at he, le_rfl⟩,
      settles_silent_append (fun a ha => Raft.mem_follow_snd ha) fun s' hl _ => ?_⟩
    -- with nothing left in the table, nothing has to be removed
    have hempty : s'.d1Log = [] := by rw [hl, hs.log_eq, hnil]; rfl
    have hholds : ((s'.putD1Meta (r.follow (D := List Entry) sender epoch).1.epoch
        (r.follow (D := List Entry) sender epoch).1.votedFor lastSeq lastEpoch).putD1Log
        (lastSeq + 1) []).d1Log = [] := by
      simp [Store.putD1Log, Store.putD1Meta, hempty]
    exact ⟨⟨rfl, hholds⟩, rfl, hholds⟩

/-- What an installed snapshot leaves of the log. -/
theorem acceptSnapshot_follow (he : r.epoch ≤ epoch) (happ : r.applied < lastSeq) :
    (r.handleInstallSnapshot sender epoch lastSeq lastEpoch data).1 =
      { (r.follow (D := List Entry) sender epoch).1 with
        log := []
        baseSeq := lastSeq
        baseEpoch := lastEpoch
        commit := lastSeq
        applied := lastSeq } := by
  have hfollow : (r.follow (D := List Entry) sender epoch).1.applied = r.applied := by
    rw [Raft.follow_fst]
  simp only [Raft.handleInstallSnapshot, if_neg (not_lt.2 he), Raft.acceptSnapshot, hfollow,
    if_neg (not_le.2 happ)]

/-- Entries installed over stay in the table. -/
theorem settles_installsOverLog (h : r.Tidy) (hs : s.Holds r) (he : r.epoch ≤ epoch)
    (happ : r.applied < lastSeq) {x : Entry} (hx : r.log[0]? = some x) :
    Settles (fun s => (x.seq, x) ∈ s.d1Log)
      (r.handleInstallSnapshot sender epoch lastSeq lastEpoch data).1 s
      ((r.handleInstallSnapshot sender epoch lastSeq lastEpoch data).2.map .act) := by
  have hseq := h.contiguous 0 x hx
  have hbase := h.base_le
  unfold Raft.handleInstallSnapshot
  rw [if_neg (not_lt.2 he)]
  dsimp only
  unfold Raft.acceptSnapshot
  rw [(h.follow sender epoch rfl).2.2.1, if_neg (by omega), map_append]
  refine settles_silent_append (fun a ha => Raft.mem_follow_snd ha) fun s' hl _ => ?_
  have hmem : (x.seq, x) ∈ s'.d1Log := by
    rw [hl, hs.log_eq]
    exact mem_map.2 ⟨x, mem_of_getElem? hx, rfl⟩
  have hkept : (x.seq, x) ∈ ((s'.putD1Meta (r.follow (D := List Entry) sender epoch).1.epoch
      (r.follow (D := List Entry) sender epoch).1.votedFor lastSeq lastEpoch).putD1Log
      (lastSeq + 1) []).d1Log :=
    mem_filter.2 ⟨hmem, decide_eq_true (by simp only; omega)⟩
  exact ⟨hkept, hkept⟩

end

theorem tidily_propose {cmd : Bytes} (h : r.Tidy) (hs : s.Holds r) :
    Tidily s (r.perform (.propose cmd)) := by
  unfold Raft.perform Raft.propose
  split_ifs with hl
  case neg => exact h.tidily_self hs
  have hlast := h.contiguous.last_snd
  set e : Entry := ⟨r.epoch, r.last.2 + 1, cmd⟩ with he
  have hcont : Contiguous { r with log := r.log ++ [e] } := by
    have := h.contiguous.push (n := r.log.length) (e := e) le_rfl (by rw [he, hlast])
    rwa [take_length] at this
  obtain ⟨c, a, heq⟩ := Raft.advanceCommit_fst (D := List Entry) { r with log := r.log ++ [e] }
  have happ := Raft.applied_le_advanceCommit { r with log := r.log ++ [e] }
  dsimp only at happ ⊢
  rw [heq] at happ ⊢
  refine ⟨⟨hcont, h.base_le.trans happ⟩, ?_⟩
  refine settles_of_storeless (s := s.putD1Log (r.last.2 + 1)
    ((r.log ++ [e]).filter fun x => r.last.2 + 1 ≤ x.seq)) (fun x hx => ?_) ⟨hs.meta_eq, ?_⟩
  · rcases mem_append.1 hx with hx | hx
    · exact (Raft.pulse_replicateAll hx).storeless
    · exact (Raft.pulse_advanceCommit hx).storeless
  · refine Store.putD1Log_table (r := { r with log := r.log ++ [e] }) hs.log_eq hcont
      (by simp only; omega) ?_
    rw [h.contiguous.filter_lt (by omega)]
    exact (take_append_of_le_length (by omega)).symm

theorem Store.Holds.compactD1Log (hs : s.Holds r) (hc : Contiguous r)
    (hn : r.baseSeq ≤ n) : (s.compactD1Log n).d1Log = table (r.log.drop (n - r.baseSeq)) := by
  have hdrop := hc.filter_ge (f := n + 1) (by omega)
  unfold Store.compactD1Log
  rw [hs.log_eq, Store.filter_table r.log fun k => ¬ k < n + 1]
  simp only [not_lt]
  rw [hdrop]
  congr 2
  omega

theorem tidily_compact (h : r.Tidy) (hs : s.Holds r) (keepTail : ℕ) :
    Tidily s (r.perform (.compact keepTail)) := by
  unfold Raft.perform Raft.compact
  by_cases hle : r.applied - keepTail ≤ r.baseSeq
  · simp only [if_pos hle]
    exact h.tidily_self hs
  simp only [if_neg hle]
  cases hent : r.entry (r.applied - keepTail) with
  | none => exact h.tidily_self hs
  | some x =>
    have hbase : r.baseSeq ≤ r.applied - keepTail := by omega
    refine ⟨⟨fun i e he => ?_, ?_⟩, rfl, hs.compactD1Log h.contiguous hbase⟩
    · simp only [getElem?_drop] at he
      have := h.contiguous _ e he
      simp only
      omega
    · simp only
      omega

/-- **Every operation that does not install over entries still held.** -/
theorem tidily_perform (h : r.Tidy) (hs : s.Holds r) (hop : op.Consecutive)
    (hno : ¬ op.InstallsOverLog r) : Tidily s (r.perform op) := by
  cases op with
  | tickElection => exact tidily_tickElection h hs
  | heartbeat =>
    refine h.tidily hs rfl rfl le_rfl fun a ha => ?_
    unfold Raft.heartbeat at ha
    split_ifs at ha
    · exact (Raft.pulse_replicateAll ha).storeless
    · cases ha
  | propose cmd => exact tidily_propose h hs
  | compact keepTail => exact tidily_compact h hs keepTail
  | handle sender msg =>
    cases msg with
    | voteReq epoch lastEpoch lastSeq => exact tidily_handleVoteReq h hs
    | voteResp epoch granted => exact tidily_handleVoteResp h hs
    | append epoch prevSeq prevEpoch entries commit => exact tidily_handleAppend h hs hop
    | appendResp epoch matchSeq ok => exact tidily_handleAppendResp h hs
    | installSnapshot epoch lastSeq lastEpoch data => exact tidily_handleInstallSnapshot h hs hno

/-! ### Runs of a driver -/

namespace Replica

/-- Whatever the driver has executed when it comes to a `Send`, and when it is done, the store
mirrors the instance. -/
def StepMirrors (d : Replica) (op : Op) : Prop :=
  (∀ before p m after, (d.raft.perform op).2 = before ++ .act (.send p m) :: after →
    ({ d with raft := (d.raft.perform op).1 }.execute before).1.store.Mirrors
      (d.raft.perform op).1) ∧
  (d.step op).1.store.Mirrors (d.raft.perform op).1

/-- An operation of a driver on its own; its messages go elsewhere. -/
def advance (d : Replica) (op : Op) : Option Replica := some (d.step op).1

variable {d : Replica}

theorem step_holds (h : d.raft.Tidy) (hs : d.store.Holds d.raft)
    (hop : op.Consecutive) (hno : ¬ op.InstallsOverLog d.raft) :
    d.StepMirrors op ∧ (d.step op).1.raft.Tidy ∧ (d.step op).1.store.Holds (d.step op).1.raft := by
  obtain ⟨htidy, hset⟩ := tidily_perform h hs hop hno
  obtain ⟨hsends, hend⟩ := (settles_iff _ { d with raft := (d.raft.perform op).1 } _).1 hset
  rw [show (d.step op).1.raft = (d.raft.perform op).1 from execute_raft _ _]
  exact ⟨⟨fun before p m after heq => (hsends before p m after heq).mirrors, hend.mirrors⟩, htidy,
    hend⟩

/-- Installing over entries still held breaks the mirror. -/
theorem not_stepMirrors (h : d.raft.Tidy) (hs : d.store.Holds d.raft)
    (hinst : op.InstallsOverLog d.raft) : ¬ d.StepMirrors op := by
  rintro ⟨-, hend⟩
  unfold Op.InstallsOverLog at hinst
  split at hinst
  case h_2 => exact hinst
  rename_i sender epoch lastSeq lastEpoch data
  obtain ⟨he, happ, hne⟩ := hinst
  obtain ⟨x, rest, hcons⟩ := exists_cons_of_ne_nil hne
  have hx : d.raft.log[0]? = some x := by rw [hcons]; rfl
  have hmem := ((settles_iff _ { d with raft := (d.raft.perform (.handle sender
    (.installSnapshot epoch lastSeq lastEpoch data))).1 } _).1
    (settles_installsOverLog h hs he happ hx)).2
  -- the instance's own log is empty now
  have hlog := hend.log_eq
  rw [show (d.raft.perform _).1.log = [] by
    simp only [Raft.perform, Raft.handle, acceptSnapshot_follow he happ]] at hlog
  have : x ∈ Store.loadD1Log _ := mem_map.2 ⟨_, hmem, rfl⟩
  exact not_mem_nil (hlog ▸ this)

theorem meets_stepMirrors_iff {ops : List Op} (h : d.raft.Tidy)
    (hs : d.store.Holds d.raft) (hops : ∀ op ∈ ops, op.Consecutive) :
    Runs.Meets advance StepMirrors d ops ↔
      Runs.Meets advance (fun d op => ¬ op.InstallsOverLog d.raft) d ops := by
  induction ops generalizing d with
  | nil => exact Iff.rfl
  | cons op ops ih =>
    by_cases hinst : op.InstallsOverLog d.raft
    · exact ⟨fun hm => absurd hm.head (not_stepMirrors h hs hinst), fun hm => absurd hinst hm.head⟩
    · obtain ⟨hmir, htidy, hholds⟩ := step_holds h hs (hops op mem_cons_self) hinst
      have ih := ih htidy hholds fun x hx => hops x (mem_cons_of_mem op hx)
      refine ⟨fun hm => ⟨hinst, fun t ht => ?_⟩, fun hm => ⟨hmir, fun t ht => ?_⟩⟩
      · cases ht
        exact ih.1 (hm.tail rfl)
      · cases ht
        exact ih.2 (hm.tail rfl)

end Replica

/-- **The durable state mirrors the instance** throughout a run exactly when no snapshot is
installed over entries still held. -/
theorem mirrors_iff (me : PublicId) (group : List PublicId) {ops : List Op}
    (hops : ∀ op ∈ ops, op.Consecutive) :
    Runs.Meets advance Replica.StepMirrors (new me group) ops ↔
      Runs.Meets advance (fun d op => ¬ op.InstallsOverLog d.raft) (new me group) ops :=
  meets_stepMirrors_iff ⟨fun i e he => by simp [new, Raft.new] at he, le_rfl⟩
    ⟨rfl, rfl⟩ hops

/-- A follower takes a snapshot first and entries after it, one of which a later leader
replaces. -/
def catchUpRun : List Op :=
  [.handle nodeB (.installSnapshot 1 2 1 [⟨1, 1, [10]⟩, ⟨1, 2, [11]⟩]),
    .handle nodeB (.append 1 2 1 [⟨1, 3, [12]⟩, ⟨1, 4, [13]⟩] 3), .compact 0,
    .handle nodeC (.append 2 3 1 [⟨2, 4, [14]⟩] 4)]

theorem mirrors_catchUpRun : Runs.Meets advance Replica.StepMirrors
    (new nodeA [nodeA, nodeB, nodeC]) catchUpRun :=
  (mirrors_iff nodeA [nodeA, nodeB, nodeC] (by decide)).2 (by decide +kernel)

/-- A follower takes an entry, and a snapshot past it before it has applied the entry. -/
def overLogRun : List Op :=
  [.handle nodeB (.append 1 0 0 [⟨1, 1, [10]⟩] 0),
    .handle nodeB (.installSnapshot 1 2 1 [⟨1, 1, [10]⟩, ⟨1, 2, [11]⟩])]

/-- The entry stays in the store: a restart takes it for the one after the snapshot. -/
theorem overLogRun_not_mirrors : (Runs.run advance (new nodeA [nodeA, nodeB, nodeC]) overLogRun).map
        (fun d => (d.raft.log, d.raft.baseSeq, d.store.loadD1Log)) = some ([], 2, [⟨1, 1, [10]⟩]) ∧
      ¬ Runs.Meets advance Replica.StepMirrors (new nodeA [nodeA, nodeB, nodeC]) overLogRun := by
  refine ⟨by decide +kernel, fun hm => ?_⟩
  have hm₁ := hm.tail (t := ((new nodeA [nodeA, nodeB, nodeC]).step
    (.handle nodeB (.append 1 0 0 [⟨1, 1, [10]⟩] 0))).1) rfl
  have hlog := hm₁.head.2.log_eq
  revert hlog
  decide +kernel

end RandallFlare
