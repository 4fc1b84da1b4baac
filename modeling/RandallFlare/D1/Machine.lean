import RandallFlare.D1.Durable

/-!
# What a state machine is fed

In every run, whatever messages are lost, repeated or acknowledged wrongly, a member applies entries
of increasing positions only, so that no entry is applied twice, and it applies nothing that was not
proposed.  The argument is about one member at a time: its log is numbered without gaps, the entries
of an `Append` are numbered consecutively, and a snapshot holds entries up to its own position.  The
predicate `P` says where an entry may come from.

* `Feeds`: what a list of actions does to the state machine;
* `Orderly`: what an operation returns, one lemma for each operation;
* `Cluster.InOrder`: the invariant, kept by every event (`Cluster.InOrder.step`);
* `applied_proposed`: the result.
-/

namespace RandallFlare

open Raft List Cluster Option

variable {P : Entry → Prop}

/-- Entries of increasing positions, up to `hi`, which all satisfy `P`. -/
structure Ascending (P : Entry → Prop) (hi : ℕ) (l : List Entry) : Prop where
  sorted : l.Pairwise fun a b => a.seq < b.seq
  le : ∀ e ∈ l, e.seq ≤ hi
  only : ∀ e ∈ l, P e

variable {hi : ℕ} {l : List Entry} {e : Entry} {Q : Entry → Prop} {msg : Msg (List Entry)} {n : ℕ}
  {as : List Effect} {q : List (Action (List Entry))} {d : Replica}
  {out : Raft × List (Action (List Entry))} {a : Action (List Entry)} {entries : List Entry}
  {op : Op} {s : Cluster}

theorem Ascending.mono {hi' : ℕ} (h : Ascending P hi l) (hle : hi ≤ hi') : Ascending P hi' l :=
  ⟨h.sorted, fun e he => (h.le e he).trans hle, h.only⟩

theorem Ascending.push (h : Ascending P hi l)
    (he : hi < e.seq) (hP : P e) : Ascending P e.seq (l ++ [e]) where
  sorted := by
    refine pairwise_append.2 ⟨h.sorted, pairwise_singleton _ _, fun a ha b hb => ?_⟩
    rw [mem_singleton.1 hb]
    exact (h.le a ha).trans_lt he
  le a ha := by
    rcases mem_append.1 ha with ha | ha
    · exact (h.le a ha).trans he.le
    · rw [mem_singleton.1 ha]
  only a ha := by
    rcases mem_append.1 ha with ha | ha
    · exact h.only a ha
    · rw [mem_singleton.1 ha]
      exact hP

theorem Ascending.nodup (h : Ascending P hi l) : l.Nodup :=
  h.sorted.imp fun hlt heq => by rw [heq] at hlt; exact lt_irrefl _ hlt

/-- The entries a message carries are in order and satisfy `P`. -/
def Msg.InOrder (P : Entry → Prop) : Msg (List Entry) → Prop
  | .append _ prevSeq _ entries _ =>
      entries.map Entry.seq = range' (prevSeq + 1) entries.length ∧ ∀ e ∈ entries, P e
  | .installSnapshot _ lastSeq _ data => Ascending P lastSeq data
  | _ => True

theorem Ascending.imp (hPQ : ∀ e, P e → Q e) (h : Ascending P hi l) : Ascending Q hi l :=
  ⟨h.sorted, h.le, fun e he => hPQ e (h.only e he)⟩

theorem Msg.InOrder.imp (hPQ : ∀ e, P e → Q e) (h : msg.InOrder P) : msg.InOrder Q := by
  cases msg with
  | append epoch prevSeq prevEpoch entries commit => exact ⟨h.1, fun e he => hPQ e (h.2 e he)⟩
  | installSnapshot epoch lastSeq lastEpoch data => exact Ascending.imp hPQ h
  | _ => trivial

/-- The actions take a state machine that is in order up to the first position to one that is in
order up to `hi`. -/
def Feeds (P : Entry → Prop) (hi : ℕ) : ℕ → List Effect → Prop
  | n, [] => n ≤ hi
  | n, .act (.apply e) :: as => n < e.seq ∧ P e ∧ Feeds P hi e.seq as
  | n, .act (.applySnapshot seq data) :: as => n ≤ seq ∧ Ascending P seq data ∧ Feeds P hi seq as
  | n, _ :: as => Feeds P hi n as

/-- The action leaves the state machine alone, and what it sends is in order. -/
def Calm (P : Entry → Prop) : Action (List Entry) → Prop
  | .apply _ => False
  | .applySnapshot _ _ => False
  | .send _ msg => msg.InOrder P
  | _ => True

/-! ### Feeding -/

theorem Feeds.le (h : Feeds P hi n as) : n ≤ hi := by
  induction as generalizing n with
  | nil => exact h
  | cons a as ih =>
    rcases a with a | m
    · cases a with
      | apply e => exact h.1.le.trans (ih h.2.2)
      | applySnapshot seq data => exact h.1.trans (ih h.2.2)
      | _ => exact ih h
    · exact ih h

theorem Feeds.anti {n' : ℕ} (h : Feeds P hi n as) (hle : n' ≤ n) : Feeds P hi n' as := by
  induction as generalizing n n' with
  | nil => exact hle.trans h
  | cons a as ih =>
    rcases a with a | m
    · cases a with
      | apply e => exact ⟨hle.trans_lt h.1, h.2⟩
      | applySnapshot seq data => exact ⟨hle.trans h.1, h.2⟩
      | _ => exact ih h hle
    · exact ih h hle

theorem Feeds.after_calm
    (h : Feeds P hi n as) (hq : ∀ a ∈ q, Calm P a) : Feeds P hi n (q.map .act ++ as) := by
  induction q with
  | nil => exact h
  | cons a q ih =>
    have hrest := ih fun b hb => hq b (mem_cons_of_mem a hb)
    have ha := hq a mem_cons_self
    cases a with
    | apply e => exact ha.elim
    | applySnapshot seq data => exact ha.elim
    | _ => exact hrest

theorem feeds_calm (hq : ∀ a ∈ q, Calm P a) (h : n ≤ hi) : Feeds P hi n (q.map .act) := by
  have hend : Feeds P hi n [] := h
  have hall := hend.after_calm hq
  rwa [append_nil] at hall

/-- An instance whose log is numbered without gaps and holds entries with `P`. -/
structure Raft.Keeps (P : Entry → Prop) (r : Raft) : Prop where
  contiguous : Contiguous r
  only : ∀ e ∈ r.log, P e

variable {r : Raft}

theorem Raft.Keeps.of_entry (h : r.Keeps P) (he : r.entry n = some e) : e.seq = n ∧ P e := by
  unfold entry at he
  split_ifs at he with hb
  have hseq := h.contiguous _ e he
  exact ⟨by omega, h.only e (mem_of_getElem? he)⟩

theorem feeds_applyLoop (h : r.Keeps P) {k a : ℕ} (has : Feeds P hi (a + k) as) :
    Feeds P hi a (((r.applyLoop k a).map Action.apply).map Effect.act ++ as) := by
  induction k generalizing a with
  | zero => exact has
  | succ k ih =>
    have hrest := ih (a := a + 1) (by rwa [show a + 1 + k = a + (k + 1) by omega])
    unfold applyLoop
    cases he : r.entry (a + 1) with
    | none => exact hrest.anti (Nat.le_succ a)
    | some e =>
      obtain ⟨hseq, hP⟩ := h.of_entry he
      exact ⟨by omega, hP, by rw [hseq]; exact hrest⟩

theorem Replica.execute_inOrder (h : Feeds P d.raft.applied n as) (hm : Ascending P n d.machine)
    (hsend : ∀ p msg, .act (.send p msg) ∈ as → msg.InOrder P) :
    Ascending P d.raft.applied (d.execute as).1.machine ∧
      ∀ p ∈ (d.execute as).2, p.2.InOrder P := by
  induction as generalizing d n with
  | nil => exact ⟨hm.mono h, fun p hp => by cases hp⟩
  | cons a as ih =>
    have hsend' : ∀ p msg, Effect.act (.send p msg) ∈ as → msg.InOrder P :=
      fun p msg hp => hsend p msg (mem_cons_of_mem _ hp)
    rcases a with a | m
    case compactLog => exact ih (d := (d.executeOne (.compactLog m)).1) h hm hsend'
    cases a with
    | apply e => exact ih (d := (d.executeOne (.act (.apply e))).1) h.2.2 (hm.push h.1 h.2.1) hsend'
    | applySnapshot seq data =>
      exact ih (d := (d.executeOne (.act (.applySnapshot seq data))).1) h.2.2 h.2.1 hsend'
    | send peer msg =>
      obtain ⟨h₁, h₂⟩ := ih (d := d) h hm hsend'
      refine ⟨h₁, fun p hp => ?_⟩
      rcases mem_cons.1 hp with rfl | hp
      · exact hsend peer msg mem_cons_self
      · exact h₂ p hp
    | needSnapshot peer =>
      obtain ⟨h₁, h₂⟩ := ih (d := d) h hm hsend'
      refine ⟨h₁, fun p hp => ?_⟩
      rcases mem_cons.1 hp with rfl | hp
      -- the snapshot is taken at the applied mark, which is not below the entries applied so far
      · have hrest : Feeds P d.raft.applied n as := h
        exact hm.mono hrest.le
      · exact h₂ p hp
    | persistMeta => exact ih (d := (d.executeOne (.act .persistMeta)).1) h hm hsend'
    | persistLog fromSeq =>
      exact ih (d := (d.executeOne (.act (.persistLog fromSeq))).1) h hm hsend'
    | becameLeader => exact ih (d := d) h hm hsend'
    | lostLeadership => exact ih (d := d) h hm hsend'

/-! ### Each operation -/

/-- What an operation returns feeds the state machine in order from `n` on, and neither its log nor
what it sends holds an entry without `P`. -/
structure Orderly (P : Entry → Prop) (out : Raft × List (Action (List Entry))) (n : ℕ) : Prop where
  only : ∀ e ∈ out.1.log, P e
  feeds : Feeds P out.1.applied n (out.2.map .act)
  sends : ∀ p msg, .send p msg ∈ out.2 → msg.InOrder P

theorem orderly_calm
    (hlog : ∀ e ∈ out.1.log, P e) (hq : ∀ a ∈ out.2, Calm P a) (happ : out.1.applied = n) :
    Orderly P out n where
  only := hlog
  feeds := feeds_calm hq happ.ge
  sends _ _ hm := hq _ hm

theorem orderly_idle (h : r.Keeps P) : Orderly P (r, []) r.applied :=
  orderly_calm h.only (fun _ ha => by cases ha) rfl

theorem Orderly.after_calm (h : Orderly P out n) (hq : ∀ a ∈ q, Calm P a) :
    Orderly P (out.1, q ++ out.2) n where
  only := h.only
  feeds := by
    rw [map_append]
    exact h.feeds.after_calm hq
  sends p msg hm := by
    rcases mem_append.1 hm with hm | hm
    · exact hq _ hm
    · exact h.sends p msg hm

theorem calm_of_silent (h : a = .persistMeta ∨ a = .lostLeadership) : Calm P a := by
  rcases h with rfl | rfl <;> trivial

theorem Contiguous.seqs_drop (h : Contiguous r) (n : ℕ) :
    (r.log.drop n).map Entry.seq = range' (r.baseSeq + n + 1) (r.log.drop n).length := by
  refine ext_getElem? fun i => ?_
  rw [getElem?_map, getElem?_drop, length_drop]
  cases he : r.log[n + i]? with
  | none =>
    have := getElem?_eq_none_iff.1 he
    rw [getElem?_eq_none_iff.2 (by rw [length_range']; omega)]
    rfl
  | some e =>
    obtain ⟨hlt, -⟩ := List.getElem?_eq_some_iff.1 he
    rw [getElem?_range' (by omega)]
    simp only [map_some, some.injEq, h _ e he]
    omega

/-- The part of the log a leader sends is numbered from the peer's next position on. -/
theorem Contiguous.seqs_filter_ge (h : Contiguous r) (hn : r.baseSeq < n ∨ n = 0 ∧ r.baseSeq = 0) :
    (r.log.filter fun e => n ≤ e.seq).map Entry.seq =
      range' (n - 1 + 1) (r.log.filter fun e => n ≤ e.seq).length := by
  rcases hn with hn | ⟨rfl, hbase⟩
  · rw [h.filter_ge hn, h.seqs_drop]
    congr 1
    omega
  · have hall := h.seqs_drop 0
    simpa [hbase] using hall

section

variable (h : r.Keeps P)

include h

theorem calm_replicateAll (ha : a ∈ r.replicateAll) : Calm P a := by
  unfold replicateAll at ha
  split at ha
  · obtain ⟨⟨peer, nextSeq⟩, -, rfl⟩ := mem_map.1 ha
    dsimp only
    split_ifs with hb
    · trivial
    · exact ⟨h.contiguous.seqs_filter_ge (by omega), fun e he => h.only e (mem_filter.1 he).1⟩
  · cases ha

theorem orderly_applyCommitted (hq : ∀ a ∈ q, Calm P a) :
    Orderly P ((r.applyCommitted (D := List Entry)).1, r.applyCommitted.2 ++ q) r.applied where
  only := h.only
  feeds := by
    rw [map_append]
    refine feeds_applyLoop h (feeds_calm hq ?_)
    show r.applied + (r.commit - r.applied) ≤ max r.applied r.commit
    omega
  sends p msg hm := by
    rcases mem_append.1 hm with hm | hm
    · obtain ⟨e, -, he⟩ := mem_map.1 hm
      cases he
    · exact hq _ hm

theorem orderly_advanceCommit : Orderly P r.advanceCommit r.applied := by
  unfold advanceCommit
  split
  · dsimp only
    split_ifs
    · refine orderly_applyCommitted (r := { r with commit := r.commitScan _ _ _ _ })
        ⟨h.contiguous, h.only⟩ fun a ha => calm_replicateAll ?_ ha
      exact ⟨h.contiguous, h.only⟩
    · have hout := orderly_applyCommitted h (q := []) fun a ha => by cases ha
      rwa [append_nil] at hout
  · exact orderly_idle h

theorem orderly_tryWin : Orderly P r.tryWin r.applied := by
  unfold tryWin
  split
  · split_ifs
    · exact orderly_idle h
    · refine orderly_calm h.only (fun a ha => ?_) rfl
      rcases mem_cons.1 ha with rfl | ha
      · trivial
      · refine calm_replicateAll ?_ ha
        exact ⟨h.contiguous, h.only⟩
  · exact orderly_idle h

theorem orderly_tickElection : Orderly P r.tickElection r.applied := by
  unfold tickElection
  split_ifs
  · exact orderly_idle h
  · refine Orderly.after_calm (orderly_tryWin ?_) fun a ha => ?_
    · exact ⟨h.contiguous, h.only⟩
    · rcases mem_cons.1 ha with rfl | ha
      · trivial
      · obtain ⟨p, -, rfl⟩ := mem_map.1 ha
        trivial

theorem orderly_becomeFollower (epoch : ℕ) : Orderly P (r.becomeFollower epoch) r.applied := by
  refine orderly_calm ?_ (fun _ ha => calm_of_silent (mem_becomeFollower_snd ha)) ?_
  · rw [becomeFollower_fst]
    exact h.only
  · rw [becomeFollower_fst]

section

variable (sender : PublicId)

theorem orderly_handleVoteReq (epoch lastEpoch lastSeq : ℕ) :
    Orderly P (r.handleVoteReq sender epoch lastEpoch lastSeq) r.applied := by
  -- stepping down in a later epoch, or nothing at all, comes first
  have hfirst : Orderly P (if r.epoch < epoch then r.becomeFollower epoch else (r, []))
      r.applied ∧ (if r.epoch < epoch then r.becomeFollower (D := List Entry) epoch
        else (r, [])).1.applied = r.applied ∧
      ∀ a ∈ (if r.epoch < epoch then r.becomeFollower epoch else (r, [])).2, Calm P a := by
    split_ifs
    · refine ⟨orderly_becomeFollower h epoch, by rw [becomeFollower_fst], fun a ha => ?_⟩
      exact calm_of_silent (mem_becomeFollower_snd ha)
    · exact ⟨orderly_idle h, rfl, fun a ha => by cases ha⟩
  unfold handleVoteReq
  dsimp only
  generalize (if r.epoch < epoch then r.becomeFollower epoch else (r, [])) = out at hfirst ⊢
  obtain ⟨hout, happ, hcalm⟩ := hfirst
  split_ifs
  all_goals
    refine orderly_calm hout.only (fun a ha => ?_) happ
    rcases mem_append.1 ha with ha | ha
    · exact hcalm a ha
    · simp only [mem_cons, not_mem_nil, or_false] at ha
      rcases ha with rfl | rfl <;> trivial

theorem orderly_handleVoteResp (epoch : ℕ) (granted : Bool) :
    Orderly P (r.handleVoteResp sender epoch granted) r.applied := by
  unfold handleVoteResp
  split_ifs
  · exact orderly_becomeFollower h epoch
  · exact orderly_idle h
  · split
    · refine orderly_tryWin ?_
      exact ⟨h.contiguous, h.only⟩
    · exact orderly_tryWin h

theorem orderly_handleAppendResp (epoch matchSeq : ℕ)
    (ok : Bool) : Orderly P (r.handleAppendResp sender epoch matchSeq ok) r.applied := by
  unfold handleAppendResp
  split_ifs
  · exact orderly_becomeFollower h epoch
  · exact orderly_idle h
  all_goals
    split
    case h_2 => exact orderly_idle h
  · refine orderly_advanceCommit ?_
    exact ⟨h.contiguous, h.only⟩
  · refine orderly_calm h.only (fun a ha => ?_) rfl
    dsimp only at ha
    refine calm_replicateAll ?_ ha
    exact ⟨h.contiguous, h.only⟩

theorem orderly_learnCommit (n : ℕ) (hq : ∀ a ∈ q, Calm P a) :
    Orderly P ((r.learnCommit (D := List Entry) n).1, (r.learnCommit n).2 ++ q) r.applied := by
  unfold learnCommit
  split_ifs
  · exact orderly_applyCommitted (r := { r with commit := min n r.last.2 })
      ⟨h.contiguous, h.only⟩ hq
  · exact orderly_calm h.only hq rfl

theorem orderly_acceptAppend {prevSeq : ℕ} (prevEpoch commit : ℕ)
    (hseq : entries.map Entry.seq = range' (prevSeq + 1) entries.length)
    (honly : ∀ e ∈ entries, P e) :
    Orderly P (r.acceptAppend sender prevSeq prevEpoch entries commit) r.applied := by
  unfold acceptAppend
  by_cases hok : r.prevOk prevSeq prevEpoch
  case neg =>
    rw [if_pos hok]
    refine orderly_calm h.only (fun a ha => ?_) rfl
    rw [mem_singleton.1 ha]
    trivial
  rw [if_neg (not_not.2 hok)]
  dsimp only
  have hkeeps : (entries.foldl appendEntry (r, none)).1.Keeps P := by
    have hnext : ∀ i x, entries[i]? = some x → x.seq = prevSeq + i + 1 :=
      fun _ _ => seq_of_consecutive hseq
    refine ⟨contiguous_foldl_appendEntry h.contiguous none (le_of_prevOk hok) hnext, ?_⟩
    rcases foldl_appendEntry h.contiguous none (le_of_prevOk hok) hnext with
      ⟨-, heq⟩ | ⟨kept, e, pushed, rfl, -, -, -, heq⟩ <;> rw [heq]
    · exact h.only
    · intro x hx
      rcases mem_append.1 hx with hx | hx
      · exact h.only x (mem_of_mem_take hx)
      · exact honly x (mem_append_right kept hx)
  obtain ⟨log, hlog⟩ := foldl_appendEntry_fst entries r none
  rw [hlog] at hkeeps ⊢
  rw [append_assoc]
  refine Orderly.after_calm (orderly_learnCommit hkeeps commit fun a ha => ?_) fun a ha => ?_
  · rw [mem_singleton.1 ha]
    trivial
  · obtain ⟨n, -, rfl⟩ := map_eq_some_iff.1 (mem_toList.1 ha)
    trivial

theorem orderly_acceptSnapshot (lastSeq lastEpoch : ℕ)
    {data : List Entry} (hdata : Ascending P lastSeq data) :
    Orderly P (r.acceptSnapshot sender lastSeq lastEpoch data) r.applied := by
  unfold acceptSnapshot
  split_ifs with hstale
  · refine orderly_calm h.only (fun a ha => ?_) rfl
    rw [mem_singleton.1 ha]
    trivial
  · refine ⟨fun e he => (by cases he), ⟨(not_le.1 hstale).le, hdata, ?_⟩, fun p msg hm => ?_⟩
    · show lastSeq ≤ lastSeq
      exact le_rfl
    · simp only [mem_cons, not_mem_nil, or_false, reduceCtorEq, false_or,
        Action.send.injEq] at hm
      rw [hm.2]
      trivial

theorem orderly_handle (hmsg : msg.InOrder P) : Orderly P (r.handle sender msg) r.applied := by
  have hfollow : ∀ epoch, (r.follow (D := List Entry) sender epoch).1.Keeps P ∧
      (r.follow (D := List Entry) sender epoch).1.applied = r.applied := by
    intro epoch
    rw [follow_fst]
    exact ⟨⟨h.contiguous, h.only⟩, rfl⟩
  have hcalm : ∀ epoch, ∀ a ∈ (r.follow (D := List Entry) sender epoch).2, Calm P a :=
    fun epoch a ha => calm_of_silent (mem_follow_snd ha)
  have hstale : Orderly P (r, [.send sender (.appendResp r.epoch 0 false)]) r.applied := by
    refine orderly_calm h.only (fun a ha => ?_) rfl
    rw [mem_singleton.1 ha]
    trivial
  cases msg with
  | voteReq epoch lastEpoch lastSeq => exact orderly_handleVoteReq h _ _ _ _
  | voteResp epoch granted => exact orderly_handleVoteResp h _ _ _
  | append epoch prevSeq prevEpoch entries commit =>
    simp only [handle, handleAppend]
    split_ifs
    · exact hstale
    · have hout := orderly_acceptAppend (hfollow epoch).1 sender prevEpoch commit hmsg.1 hmsg.2
      rw [(hfollow epoch).2] at hout
      exact hout.after_calm (hcalm epoch)
  | appendResp epoch matchSeq ok => exact orderly_handleAppendResp h _ _ _ _
  | installSnapshot epoch lastSeq lastEpoch data =>
    simp only [handle, handleInstallSnapshot]
    split_ifs
    · exact hstale
    · have hout := orderly_acceptSnapshot (hfollow epoch).1 sender lastSeq lastEpoch hmsg
      rw [(hfollow epoch).2] at hout
      exact hout.after_calm (hcalm epoch)

end

theorem orderly_propose {cmd : Bytes}
    {out : ℕ × Raft × List (Action (List Entry))} (hp : r.propose cmd = .ok out)
    (hcmd : P ⟨r.epoch, r.last.2 + 1, cmd⟩) : Orderly P out.2 r.applied := by
  unfold propose at hp
  split_ifs at hp
  cases hp
  have hkeeps : Raft.Keeps P { r with log := r.log ++ [⟨r.epoch, r.last.2 + 1, cmd⟩] } := by
    refine ⟨?_, fun e he => ?_⟩
    · have hpush := h.contiguous.push (n := r.log.length) (e := ⟨r.epoch, r.last.2 + 1, cmd⟩) le_rfl
        (by rw [h.contiguous.last_snd])
      rwa [take_length] at hpush
    · rcases mem_append.1 he with he | he
      · exact h.only e he
      · rw [mem_singleton.1 he]
        exact hcmd
  refine Orderly.after_calm (orderly_advanceCommit hkeeps) fun a ha => ?_
  rcases mem_cons.1 ha with rfl | ha
  · trivial
  · exact calm_replicateAll hkeeps ha

end

/-! ### Members and groups -/

/-- What an operation takes in: a message in order, or a command whose entry satisfies `P`. -/
def Op.InOrder (P : Entry → Prop) (r : Raft) : Op → Prop
  | .handle _ msg => msg.InOrder P
  | .propose cmd => P ⟨r.epoch, r.last.2 + 1, cmd⟩
  | _ => True

/-- A log numbered without gaps, and a state machine that went through increasing positions up to
the applied mark; all entries satisfy `P`. -/
structure Replica.InOrder (P : Entry → Prop) (d : Replica) : Prop where
  tidy : d.raft.Tidy
  only : ∀ e ∈ d.raft.log, P e
  machine : Ascending P d.raft.applied d.machine

theorem Op.InOrder.consecutive (h : op.InOrder P r) : op.Consecutive := by
  unfold Op.Consecutive
  split
  · exact h.1
  · trivial

theorem tidy_perform (h : r.Tidy) (hop : op.Consecutive) : (r.perform op).1.Tidy := by
  by_cases hinst : op.InstallsOverLog r
  · -- the whole log gives way to the snapshot
    unfold Op.InstallsOverLog at hinst
    split at hinst
    case h_2 => exact hinst.elim
    rename_i sender epoch lastSeq lastEpoch data
    obtain ⟨hepoch, happ, -⟩ := hinst
    simp only [perform, handle, acceptSnapshot_follow hepoch happ]
    exact ⟨fun i e he => by simp at he, le_rfl⟩
  · exact (tidily_perform (s := (Store.mk none (table r.log)).putD1Meta r.epoch r.votedFor
      r.baseSeq r.baseEpoch) h ⟨rfl, rfl⟩ hop hinst).1

theorem Replica.InOrder.of_feeds (h : d.InOrder P)
    (hop : op.InOrder P d.raft) (honly : ∀ e ∈ (d.raft.perform op).1.log, P e)
    (hfeeds : Feeds P (d.raft.perform op).1.applied d.raft.applied (d.raft.perform op).2)
    (hsends : ∀ p msg, .act (.send p msg) ∈ (d.raft.perform op).2 → msg.InOrder P) :
    (d.step op).1.InOrder P ∧ ∀ p ∈ (d.step op).2, p.2.InOrder P := by
  obtain ⟨hmachine, hsent⟩ := Replica.execute_inOrder
    (d := { d with raft := (d.raft.perform op).1 }) hfeeds h.machine hsends
  refine ⟨⟨?_, ?_, ?_⟩, hsent⟩
  · rw [d.step_raft op]
    exact tidy_perform h.tidy hop.consecutive
  · rw [d.step_raft op]
    exact honly
  · rw [d.step_raft op]
    exact hmachine

theorem Replica.InOrder.of_orderly (h : d.InOrder P)
    (hop : op.InOrder P d.raft) (out : Raft × List (Action (List Entry)))
    (heq : d.raft.perform op = (out.1, out.2.map .act)) (hout : Orderly P out d.raft.applied) :
    (d.step op).1.InOrder P ∧ ∀ p ∈ (d.step op).2, p.2.InOrder P := by
  refine h.of_feeds hop ?_ ?_ fun p msg hp => ?_
  · rw [heq]
    exact hout.only
  · rw [heq]
    exact hout.feeds
  · rw [heq] at hp
    obtain ⟨a, ha, hact⟩ := mem_map.1 hp
    cases hact
    exact hout.sends p msg ha

theorem compact_frame (r : Raft) (keepTail : ℕ) :
    (r.compact keepTail).1.applied = r.applied ∧ ∀ e ∈ (r.compact keepTail).1.log, e ∈ r.log := by
  unfold compact
  dsimp only
  split_ifs
  · exact ⟨rfl, fun e he => he⟩
  · split
    · exact ⟨rfl, fun e he => he⟩
    · exact ⟨rfl, fun e he => mem_of_mem_drop he⟩

/-- **Every operation keeps a member in order.** -/
theorem Replica.InOrder.step (h : d.InOrder P) (hop : op.InOrder P d.raft) :
    (d.step op).1.InOrder P ∧ ∀ p ∈ (d.step op).2, p.2.InOrder P := by
  have hkeeps : d.raft.Keeps P := ⟨h.tidy.contiguous, h.only⟩
  cases op with
  | tickElection => exact h.of_orderly hop _ rfl (orderly_tickElection hkeeps)
  | heartbeat =>
    refine h.of_orderly hop (d.raft, d.raft.heartbeat) rfl
      (orderly_calm h.only (fun a ha => ?_) rfl)
    dsimp only [heartbeat] at ha
    split_ifs at ha
    · exact calm_replicateAll hkeeps ha
    · cases ha
  | propose cmd =>
    cases hp : d.raft.propose (D := List Entry) cmd with
    | ok out =>
      exact h.of_orderly hop out.2 (by simp only [perform, hp])
        (orderly_propose hkeeps hp hop)
    | error hint =>
      exact h.of_orderly hop (d.raft, []) (by simp only [perform, hp, map_nil])
        (orderly_idle hkeeps)
  | compact keepTail =>
    obtain ⟨happ, hsub⟩ := compact_frame d.raft keepTail
    refine h.of_feeds hop (fun e he => h.only e (hsub e he)) ?_ fun p msg hp => ?_
    · simp only [perform]
      split_ifs
      · exact happ.ge
      · exact happ.ge
    · simp only [perform] at hp
      split_ifs at hp <;> simp at hp
  | handle sender msg => exact h.of_orderly hop _ rfl (orderly_handle hkeeps sender hop)

/-- Every member of the group and every message is in order. -/
structure Cluster.InOrder (P : Entry → Prop) (s : Cluster) : Prop where
  nodes : ∀ id, (s.nodes id).InOrder P
  net : ∀ p ∈ s.net, p.2.2.InOrder P

theorem Cluster.InOrder.imp (hPQ : ∀ e, P e → Q e) (h : s.InOrder P) : s.InOrder Q where
  nodes id :=
    { tidy := (h.nodes id).tidy
      only := fun e he => hPQ e ((h.nodes id).only e he)
      machine := (h.nodes id).machine.imp hPQ }
  net p hp := (h.net p hp).imp hPQ

theorem Cluster.inOrder_init (P : Entry → Prop) (group : List PublicId) :
    (init group).InOrder P where
  nodes id :=
    { tidy := ⟨fun i e he => by simp [init, Replica.new, new] at he, le_rfl⟩
      only := fun e he => by cases he
      machine :=
        { sorted := Pairwise.nil
          le := fun e he => by cases he
          only := fun e he => by cases he } }
  net p hp := by cases hp

/-- **Every event keeps the group in order**, as long as what it proposes satisfies `P`. -/
theorem Cluster.InOrder.step {group : List PublicId} {t : Cluster} {id : PublicId}
    (h : s.InOrder P) (hstep : s.step group (id, op) = some t) (hcmd : ∀ cmd, op = .propose cmd →
      P ⟨(s.nodes id).raft.epoch, (s.nodes id).raft.last.2 + 1, cmd⟩) : t.InOrder P := by
  unfold Cluster.step at hstep
  split_ifs at hstep with hdeliver
  cases hstep
  have hop : op.InOrder P (s.nodes id).raft := by
    unfold Op.InOrder
    split
    · exact h.net _ hdeliver.2
    · exact hcmd _ rfl
    · trivial
  obtain ⟨hnode, hsent⟩ := (h.nodes id).step hop
  refine ⟨fun w => ?_, fun p hp => ?_⟩
  · by_cases hw : w = id
    · subst hw
      rw [put_nodes_self]
      exact hnode
    · rw [put_nodes_of_ne s hw]
      exact h.nodes w
  · rcases mem_append.1 hp with hp | hp
    · exact h.net p hp
    · obtain ⟨m, hm, rfl⟩ := mem_map.1 hp
      exact hsent m hm

/-- **In every run a member applies only commands that were proposed, at increasing positions.** -/
theorem applied_proposed {group : List PublicId} {evs : List Event} {s : Cluster}
    (hrun : runFrom group evs = some s) (id : PublicId) :
    Ascending (fun e => ∃ a, (a, .propose e.cmd) ∈ evs) (s.nodes id).raft.applied
      (s.nodes id).machine := by
  have hin : s.InOrder fun e => ∃ a, (a, .propose e.cmd) ∈ evs := by
    refine Runs.run_invariant (fun s ev t h hmem hstep => ?_) (inOrder_init _ group)
      ((Runs.meets_true _ evs).and_mem fun _ h => h) hrun
    obtain ⟨a, op⟩ := ev
    exact h.step hstep fun cmd hcmd => ⟨a, hcmd ▸ hmem.2⟩
  exact (hin.nodes id).machine

/-- Two commands reach the second member, the second of them twice, and later the third member. -/
def twoCommands : List Event :=
  [(nodeA, .tickElection), (nodeB, .handle nodeA (.voteReq 1 0 0)),
    (nodeA, .handle nodeB (.voteResp 1 true)), (nodeA, .propose [10]),
    (nodeB, .handle nodeA (.append 1 0 0 [⟨1, 1, [10]⟩] 0)),
    (nodeA, .handle nodeB (.appendResp 1 1 true)), (nodeA, .propose [20]),
    (nodeB, .handle nodeA (.append 1 1 1 [⟨1, 2, [20]⟩] 1)),
    (nodeB, .handle nodeA (.append 1 1 1 [⟨1, 2, [20]⟩] 1)),
    (nodeA, .handle nodeB (.appendResp 1 2 true)), (nodeA, .heartbeat),
    (nodeC, .handle nodeA (.append 1 0 0 [⟨1, 1, [10]⟩, ⟨1, 2, [20]⟩] 2))]

theorem applied_proposed_twoCommands :
    ∃ s, runFrom [nodeA, nodeB, nodeC] twoCommands = some s ∧
      (s.nodes nodeC).machine = [⟨1, 1, [10]⟩, ⟨1, 2, [20]⟩] ∧
      ∀ e ∈ (s.nodes nodeC).machine, e.cmd = [10] ∨ e.cmd = [20] :=
  Runs.exists_of_view (fun s => (s.nodes nodeC).machine) (by decide +kernel) fun s hs hv =>
    ⟨hv, fun e he => by
      simpa [twoCommands, exists_or] using (applied_proposed hs nodeC).only e he⟩

end RandallFlare
