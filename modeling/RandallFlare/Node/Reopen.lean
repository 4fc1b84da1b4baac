import RandallFlare.Claims.Order
import RandallFlare.Node.Node

/-!
# Timestamps across restarts

The clock of a node is not stored.  `Node::open` starts a new one and feeds it the timestamps of the
stored key-value entries, but not those of the stored claims, although claims are stamped by the
same clock and pull it ahead when they come from a node whose clock is.

* `Node.reopened`: `Node::open` with a reading of the wall clock for every entry;
* `Node.claimTry`, `Node.claimRenew`: the calls that stamp claims;
* `Boot.step`: a node that takes calls and restarts;
* `ordered_of_caughtUp`: every timestamp is later than all in the store, as long as the clock or the
  wall time has passed the claims that the last restart loaded.
-/

namespace RandallFlare

open Node SortedMap List Option Envelope

/-! ### Opening a store -/

namespace Node

/-- The loop of `Node::open` over the entries, `i` of which have been looked at. -/
def hydrate (x : Crypto) (wall : ℕ → ℕ) :
    ℕ → Inner → List (String × String × KvEntry) → Inner
  | _, inner, [] => inner
  | i, inner, item :: items =>
      hydrate x wall (i + 1) { (inner.mergeKv x item.1 item.2.1 item.2.2).1 with
        clock := inner.clock.observe item.2.2.hlc (wall i) } items

/-- Memory before the entries are looked at. -/
def bootInner (x : Crypto) (operator : SignerId) (store : NodeStore) : Inner :=
  ⟨Clock.new, ClaimSet.new.ingestAll x store.loadClaims,
    (ManifestSet.new operator).ingestAll x store.loadManifests, empty⟩

/-- Close the node and open it again. -/
def reopened (x : Crypto) (n : Node) (wall : ℕ → ℕ) : Except String Node := do
  let items ← n.store.loadKv
  pure ⟨n.id, n.operator, hydrate x wall 0 (bootInner x n.operator n.store) items, n.store⟩

/-! ### Claims -/

/-- Every transaction commits. -/
def allCommit : ℕ → Bool := fun _ => true

/-- The envelope `seal` makes of a claim: it opens to the claim, and the holder is its signer. -/
def Sealed (x : Crypto) (env : Envelope) (c : Claim) : Prop :=
  env.openPayload x Claim.decoder none = .ok c ∧ env.signer = .ed c.holder

instance (x : Crypto) (env : Envelope) (c : Claim) : Decidable (Sealed x env c) :=
  inferInstanceAs (Decidable (_ ∧ _))

/-- The node with another clock. -/
def withClock (n : Node) (clock : Clock) : Node := { n with inner := { n.inner with clock } }

/-- Stamp a claim and ingest its envelope, which is `env`. -/
def issueClaim (x : Crypto) (n : Node) (wallMs : ℕ) (later : ℕ → ℕ) (c : Hlc → Claim)
    (env : Envelope) : Option Node :=
  if Sealed x env (c (n.inner.clock.now wallMs).last) then
    some ((n.withClock (n.inner.clock.now wallMs)).ingestClaim x later allCommit env).1
  else none

def claimTry (x : Crypto) (n : Node) (task : String) (ttlMs : ℕ) (wall : ℕ → ℕ)
    (env : Envelope) : Option Node :=
  if (n.inner.claims.winner task (wall 0)).isSome then some n
  else n.issueClaim x (wall 1) (fun k => wall (k + 2)) (fun now => .make n.id task now ttlMs) env

def claimRenew (x : Crypto) (n : Node) (task : String) (release : Bool) (wall : ℕ → ℕ)
    (env : Envelope) : Option Node :=
  match n.inner.claims.mine task n.id with
  | none => some n
  | some rec =>
      n.issueClaim x (wall 0) (fun k => wall (k + 1)) (fun now => rec.claim.renew now release) env

end Node

/-- All timestamps in the store are before `t`. -/
def NodeStore.Before (x : Crypto) (store : NodeStore) (t : Hlc) : Prop :=
  (∀ e ∈ store.kv.values, e.hlc < t) ∧
    ∀ env ∈ store.claims.values, ∀ r ∈ (readClaim x env).toOption,
      r.claim.acquired < t ∧ r.claim.renewed < t

instance (x : Crypto) (store : NodeStore) (t : Hlc) : Decidable (store.Before x t) :=
  inferInstanceAs (Decidable (_ ∧ _))

/-! ### Runs -/

inductive NodeTurn
  | call (c : NodeCall) (wall : ℕ → ℕ)
  | claimTry (task : String) (ttlMs : ℕ) (wall : ℕ → ℕ) (env : Envelope)
  | claimRenew (task : String) (release : Bool) (wall : ℕ → ℕ) (env : Envelope)
  | reopen (wall : ℕ → ℕ)

/-- A node, and the renewals of the claims that were in its store when it was last opened. -/
structure Boot where
  node : Node
  loaded : List Hlc

namespace Boot

def init (id : PublicId) (operator : SignerId) : Boot := ⟨new id operator, []⟩

/-- The renewals of the claims of a store. -/
def renewals (x : Crypto) (store : NodeStore) : List Hlc :=
  (store.loadClaims.filterMap fun env => (readClaim x env).toOption).map (·.claim.renewed)

def step (x : Crypto) (s : Boot) : NodeTurn → Option Boot
  | .call c wall => some ⟨s.node.perform x ⟨c, wall, allCommit⟩, s.loaded⟩
  | .claimTry task ttlMs wall env =>
      (s.node.claimTry x task ttlMs wall env).map fun n => ⟨n, s.loaded⟩
  | .claimRenew task release wall env =>
      (s.node.claimRenew x task release wall env).map fun n => ⟨n, s.loaded⟩
  | .reopen wall => (s.node.reopened x wall).toOption.map fun n => ⟨n, renewals x s.node.store⟩

/-- The envelopes of claims a run delivers or makes. -/
def delivered (turns : List NodeTurn) : List Envelope :=
  turns.filterMap fun turn => match turn with
    | .call (.ingestClaim env) _ => some env
    | .claimTry _ _ _ env => some env
    | .claimRenew _ _ _ env => some env
    | _ => none

/-- The timestamps a turn issues, each with the store at that moment. -/
def issued (s : Boot) : NodeTurn → List (NodeStore × Hlc)
  | .call (.kvPut ns key value exp) wall =>
      (s.node.store, (s.node.inner.clock.now (wall 0)).last) ::
        if "__rf".toList <+: ns.toList then []
        else [((s.node.kvPutEntry (wall 0) true ns key value exp).1.store,
          ((s.node.inner.clock.now (wall 0)).now (wall 1)).last)]
  | .call (.kvPutWithMetadata ns key value exp _) wall =>
      [(s.node.store, (s.node.inner.clock.now (wall 0)).last),
        ((s.node.kvPutEntry (wall 0) true ns key value exp).1.store,
          ((s.node.inner.clock.now (wall 0)).now (wall 1)).last)]
  | .call _ _ => []
  | .claimTry task _ wall _ =>
      if (s.node.inner.claims.winner task (wall 0)).isSome then []
      else [(s.node.store, (s.node.inner.clock.now (wall 1)).last)]
  | .claimRenew task _ wall _ =>
      if (s.node.inner.claims.mine task s.node.id).isSome then
        [(s.node.store, (s.node.inner.clock.now (wall 0)).last)]
      else []
  | .reopen _ => []

/-- The claim a turn makes is news to the node itself: it is not refused as stale, as moved or as
renewed before it was acquired. -/
def Accepted (x : Crypto) (s : Boot) : NodeTurn → Prop
  | .claimTry task ttlMs wall env =>
      (s.node.inner.claims.winner task (wall 0)).isSome = false → ttlMs ≠ 0 →
        Node.Sealed x env (.make s.node.id task (s.node.inner.clock.now (wall 1)).last ttlMs) →
        (s.node.inner.claims.ingest x env).2 = .ok .changed
  | .claimRenew task release wall env =>
      ∀ rec ∈ s.node.inner.claims.mine task s.node.id,
        Node.Sealed x env (rec.claim.renew (s.node.inner.clock.now (wall 0)).last release) →
        (s.node.inner.claims.ingest x env).2 = .ok .changed
  | .call _ _ | .reopen _ => True

/-- What a turn issues is later than all in the store, and its claim is accepted. -/
def Ordered (x : Crypto) (s : Boot) (turn : NodeTurn) : Prop :=
  (∀ p ∈ s.issued turn, p.1.Before x p.2) ∧ s.Accepted x turn

/-! #### Conditions -/

/-- The calls of the clock that the timestamps of entries make. -/
def observes (wall : ℕ → ℕ) : ℕ → List Hlc → List ClockCall
  | _, [] => []
  | i, t :: ts => .observe t (wall i) :: observes wall (i + 1) ts

/-- The calls of the clock that ingesting a claim makes. -/
def claimCalls (x : Crypto) (claims : ClaimSet) (env : Envelope) (wallMs : ℕ) : List ClockCall :=
  match (claims.ingest x env).2, readClaim x env with
  | .ok .changed, .ok r => [.observe r.claim.renewed wallMs]
  | _, _ => []

/-- The clock a turn starts from and the calls it makes of it. -/
def clockCalls (x : Crypto) (s : Boot) : NodeTurn → Clock × List ClockCall
  | .call (.kvPut ns _ _ _) wall => (s.node.inner.clock,
      .now (wall 0) :: if "__rf".toList <+: ns.toList then [] else [.now (wall 1)])
  | .call (.kvPutWithMetadata _ _ _ _ _) wall =>
      (s.node.inner.clock, [.now (wall 0), .now (wall 1)])
  | .call (.kvMergeRemote _ items) wall =>
      (s.node.inner.clock, observes wall 0 (items.map (·.2.hlc)))
  | .call (.ingestClaim env) wall =>
      (s.node.inner.clock, claimCalls x s.node.inner.claims env (wall 0))
  | .call (.ingestManifest _) _ | .call .gc _ => (s.node.inner.clock, [])
  | .claimTry task _ wall env => (s.node.inner.clock,
      if (s.node.inner.claims.winner task (wall 0)).isSome then []
      else .now (wall 1) :: claimCalls x s.node.inner.claims env (wall 2))
  | .claimRenew task _ wall env => (s.node.inner.clock,
      if (s.node.inner.claims.mine task s.node.id).isSome then
        .now (wall 0) :: claimCalls x s.node.inner.claims env (wall 1)
      else [])
  | .reopen wall => (Clock.new, match s.node.store.loadKv with
      | .ok items => observes wall 0 (items.map (·.2.2.hlc))
      | .error _ => [])

/-- The logical counter stays below its limit. -/
def WithinLimit (x : Crypto) (s : Boot) (turn : NodeTurn) : Prop :=
  Runs.Meets Clock.step Clock.Fits (s.clockCalls x turn).1 (s.clockCalls x turn).2

/-- The reading of the wall clock for the first timestamp a turn issues. -/
def reading (s : Boot) : NodeTurn → Option ℕ
  | .call (.kvPut _ _ _ _) wall | .call (.kvPutWithMetadata _ _ _ _ _) wall => some (wall 0)
  | .call _ _ | .reopen _ => none
  | .claimTry task _ wall _ =>
      if (s.node.inner.claims.winner task (wall 0)).isSome then none else some (wall 1)
  | .claimRenew task _ wall _ =>
      if (s.node.inner.claims.mine task s.node.id).isSome then some (wall 0) else none

/-- When a timestamp is issued, the clock or the wall time has passed every claim that the node
has loaded when it was last opened. -/
def CaughtUp (s : Boot) (turn : NodeTurn) : Prop :=
  ∀ wallMs ∈ s.reading turn, ∀ t ∈ s.loaded, t ≤ s.node.inner.clock.last ∨ t.wallMs < wallMs

instance (x : Crypto) (s : Boot) (turn : NodeTurn) : Decidable (s.WithinLimit x turn) :=
  inferInstanceAs (Decidable (Runs.Meets _ _ _ _))

instance (s : Boot) (turn : NodeTurn) : Decidable (s.CaughtUp turn) :=
  inferInstanceAs (Decidable (∀ wallMs ∈ s.reading turn, ∀ t ∈ s.loaded, _ ∨ _))

instance (x : Crypto) (s : Boot) (turn : NodeTurn) : Decidable (s.Accepted x turn) :=
  match turn with
  | .claimTry _ _ _ _ => inferInstanceAs (Decidable (_ → _ → _ → _))
  | .claimRenew task _ _ _ =>
      inferInstanceAs (Decidable (∀ rec ∈ s.node.inner.claims.mine task s.node.id, _ → _))
  | .call _ _ => isTrue trivial
  | .reopen _ => isTrue trivial

instance (x : Crypto) (s : Boot) (turn : NodeTurn) : Decidable (s.Ordered x turn) :=
  inferInstanceAs (Decidable (_ ∧ _))

end Boot

/-! ### What a call leaves behind -/

variable {x : Crypto} {S : List Envelope}

/-- From `n` to `m` the clock has not gone back, and what is new in memory and store is not ahead of
it; new claims come from `S`. -/
structure Grows (x : Crypto) (S : List Envelope) (n m : Node) : Prop where
  clock : n.inner.clock.last ≤ m.inner.clock.last
  kv : ∀ e ∈ m.store.kv.values, e ∈ n.store.kv.values ∨ e.hlc ≤ m.inner.clock.last
  claims : ∀ task me r, m.inner.claims.mine task me = some r →
    n.inner.claims.mine task me = some r ∨
      r ∈ claimsOf x S task me ∧ r.claim.renewed ≤ m.inner.clock.last
  table : ∀ env ∈ m.store.claims.values, env ∈ n.store.claims.values ∨
    env ∈ S ∧ ∀ r, readClaim x env = .ok r → r.claim.renewed ≤ m.inner.clock.last

namespace Grows

variable {n m o : Node} {env : Envelope}

theorem of_same (hclock : n.inner.clock.last ≤ m.inner.clock.last)
    (hkv : m.store.kv = n.store.kv) (hclaims : m.claimPart = n.claimPart) : Grows x S n m := by
  obtain ⟨hmemory, htable⟩ := ClaimPart.ext_iff.1 hclaims
  have hmemory' : m.inner.claims = n.inner.claims := hmemory
  have htable' : m.store.claims = n.store.claims := htable
  exact ⟨hclock, fun e he => .inl (hkv ▸ he), fun task me r hr => .inl (hmemory' ▸ hr),
    fun env henv => .inl (htable' ▸ henv)⟩

theorem refl (n : Node) : Grows x S n n := of_same le_rfl rfl rfl

theorem trans (h : Grows x S n m) (h' : Grows x S m o) : Grows x S n o where
  clock := h.clock.trans h'.clock
  kv e he := by
    rcases h'.kv e he with he | he
    · exact (h.kv e he).imp id fun hle => hle.trans h'.clock
    · exact .inr he
  claims task me r hr := by
    rcases h'.claims task me r hr with hr | hr
    · exact (h.claims task me r hr).imp id fun hnew => ⟨hnew.1, hnew.2.trans h'.clock⟩
    · exact .inr hr
  table env henv := by
    rcases h'.table env henv with henv | henv
    · exact (h.table env henv).imp id fun hnew => ⟨hnew.1, fun r hr => (hnew.2 r hr).trans h'.clock⟩
    · exact .inr henv

theorem withClock {clock : Clock} (h : n.inner.clock.last ≤ clock.last) :
    Grows x S n (n.withClock clock) :=
  of_same h rfl rfl

theorem mem_values_insert {V : Type} {table : SortedMap String V} {k : String} {v u : V}
    (h : u ∈ (table.insert k v).values) : u ∈ table.values ∨ u = v := by
  obtain ⟨k', hk'⟩ := (mem_values _).1 h
  rw [get_insert] at hk'
  split_ifs at hk'
  · exact .inr (some.inj hk').symm
  · exact .inl ((mem_values _).2 ⟨k', hk'⟩)

theorem kvPutEntry {wallMs : ℕ} (h : n.inner.clock.Fits (.now wallMs)) (ns key : String)
    (value : Option Bytes) (exp : Option ℕ) :
    Grows x S n (n.kvPutEntry wallMs true ns key value exp).1 where
  clock := (Clock.lt_now h).le
  kv e he := (mem_values_insert he).imp id fun heq => by rw [heq]; exact le_rfl
  claims _ _ _ hr := .inl hr
  table _ henv := .inl henv

theorem kvMergeFrom {wall : ℕ → ℕ} {ns : String} {items : List (String × KvEntry)}
    {i applied : ℕ} (h : Runs.Meets Clock.step Clock.Fits n.inner.clock
      (Boot.observes wall i (items.map (·.2.hlc)))) :
    Grows x S n (kvMergeFrom x wall allCommit ns i applied n items).1 := by
  induction items generalizing n i applied with
  | nil => exact refl n
  | cons p items ih =>
    have hfits : n.inner.clock.Fits (.observe p.2.hlc (wall i)) := Runs.Meets.head h
    have hobserve := Clock.max_le_observe hfits
    have htail := Runs.Meets.tail h rfl
    have hitem : Grows x S n (n.kvMergeItem x (wall i) ns p).1 :=
      of_same ((le_max_left _ _).trans hobserve) rfl rfl
    have hclock : (n.kvMergeItem x (wall i) ns p).1.inner.clock =
        n.inner.clock.observe p.2.hlc (wall i) := rfl
    unfold kvMergeFrom
    split
    · rename_i m hm
      rw [hm] at hitem hclock
      exact hitem.trans (ih (hclock ▸ htail))
    · rename_i m hm
      rw [hm] at hitem hclock
      have hput : Grows x S n { m with store := m.store.putKv ns p.1 p.2 } := by
        refine ⟨hitem.clock, fun e he => ?_, hitem.claims, hitem.table⟩
        rcases mem_values_insert he with he | rfl
        · exact hitem.kv e he
        · refine .inr ?_
          rw [hclock]
          exact (le_max_right _ _).trans hobserve
      exact hput.trans (ih (hclock ▸ htail))

theorem ingestClaim (henv : env ∈ S) (later : ℕ → ℕ)
    (h : Runs.Meets Clock.step Clock.Fits n.inner.clock
      (Boot.claimCalls x n.inner.claims env (later 0))) :
    Grows x S n (n.ingestClaim x later allCommit env).1 := by
  unfold Node.ingestClaim
  rcases ClaimSet.ingest_cases x n.inner.claims env with ⟨r, hread, hingest⟩ | ⟨hsame, hne⟩
  · have hcalls : Boot.claimCalls x n.inner.claims env (later 0) =
        [.observe r.claim.renewed (later 0)] := by
      unfold Boot.claimCalls
      rw [hingest, hread]
    rw [hcalls] at h
    have hfits : n.inner.clock.Fits (.observe r.claim.renewed (later 0)) := Runs.Meets.head h
    have hobserve := Clock.max_le_observe hfits
    rw [hingest]
    rw [openPayload_of_readClaim hread]
    dsimp only
    rw [if_neg (not_not.2 (show allCommit 0 = true from rfl))]
    refine ⟨(le_max_left _ _).trans hobserve, fun e he => .inl he, fun task me q hq => ?_,
      fun env' henv' => ?_⟩
    · dsimp only at hq
      rw [ClaimSet.mine_store] at hq
      split_ifs at hq with hkey
      · obtain rfl := some.inj hq
        exact .inr ⟨mem_claimsOf.2 ⟨env, henv, hread, hkey⟩, (le_max_right _ _).trans hobserve⟩
      · exact .inl hq
    · refine (mem_values_insert henv').imp id fun heq => ?_
      subst heq
      refine ⟨henv, fun q hq => ?_⟩
      obtain rfl := Except.ok.inj (hread.symm.trans hq)
      exact (le_max_right _ _).trans hobserve
  · dsimp only
    rw [hsame]
    split
    · rename_i hchanged
      exact absurd hchanged hne
    · exact refl n
    · exact refl n

theorem gc (n : Node) (nowMs : ℕ) : Grows x S n (n.gc nowMs) := by
  refine ⟨le_rfl, fun e he => .inl he, fun task me r hr => ?_, fun env henv => .inl henv⟩
  have hr' : (n.inner.claims.gc nowMs horizonMs).mine task me = some r := hr
  rw [ClaimSet.mine_gc, filter_eq_some_iff] at hr'
  exact .inl hr'.1

theorem issueClaim {wallMs : ℕ} {later : ℕ → ℕ} {c : Hlc → Claim}
    (henv : env ∈ S) (h : Runs.Meets Clock.step Clock.Fits n.inner.clock
      (.now wallMs :: Boot.claimCalls x n.inner.claims env (later 0)))
    (hm : n.issueClaim x wallMs later c env = some m) : Grows x S n m := by
  unfold Node.issueClaim at hm
  split_ifs at hm
  cases hm
  have hfits : n.inner.clock.Fits (.now wallMs) := Runs.Meets.head h
  exact (withClock (Clock.lt_now hfits).le).trans
    (ingestClaim henv later (Runs.Meets.tail h rfl))

theorem ingestManifest (n : Node) (disk : ℕ → Bool) (env : Envelope) :
    Grows x S n (n.ingestManifest x disk env).1 := by
  have hframe := n.frame_ingestManifest x disk env
  refine of_same (le_of_eq ?_) (congrArg KvPart.table hframe.2) hframe.1
  unfold Node.ingestManifest
  dsimp only
  split
  · rfl
  · rfl
  · split
    · rfl
    · cases disk 0 <;> cases disk 1 <;> rfl

end Grows

/-! ### Claims of its own -/

variable {env : Envelope} {r : ClaimRecord}

theorem readClaim_checked (h : readClaim x env = .ok r) :
    r.claim.acquired ≤ r.claim.renewed ∧ r.claim.ttlMs ≠ 0 := by
  unfold readClaim at h
  split at h
  · cases h
  · split_ifs at h with _ hrenewed httl
    obtain rfl := Except.ok.inj h
    exact ⟨not_lt.1 hrenewed, httl⟩

theorem Node.Sealed.readClaim {c : Claim} (h : Sealed x env c)
    (hrenewed : c.acquired ≤ c.renewed) (httl : c.ttlMs ≠ 0) :
    readClaim x env = .ok ⟨c, env.digest x, env⟩ := by
  unfold RandallFlare.readClaim
  rw [h.1]
  dsimp only
  rw [if_neg (not_not.2 h.2.symm), if_neg hrenewed.not_gt, if_neg httl]

theorem ClaimSet.ingest_changed {s : ClaimSet} (hsha : x.CollisionFree (S.map digestInput))
    (hs : s.Known x S) (henv : env ∈ S) (hread : readClaim x env = .ok r)
    (hnew : ∀ q, s.mine r.claim.task r.claim.holder = some q → q.rank < r.rank) :
    (s.ingest x env).2 = .ok .changed := by
  have hoffered : r.offered (s.mine r.claim.task r.claim.holder) = .ok .changed := by
    cases hheld : s.mine r.claim.task r.claim.holder with
    | none => rfl
    | some q =>
      obtain ⟨f, hf, hfread, -⟩ := mem_claimsOf.1 (hs _ _ _ hheld)
      exact (ClaimRecord.offered_eq_changed
        (readClaim_injOn_digest hsha hf henv hfread hread)).2 (hnew q hheld)
  unfold ingest
  rw [hread]
  dsimp only
  rw [hoffered]

/-! ### The invariant -/

namespace Boot

variable {s t : Boot} {turn : NodeTurn} {turns : List NodeTurn}

/-- The clock has passed the timestamp, or it is one of those the node was opened with. -/
def Reached (s : Boot) (t : Hlc) : Prop := t ≤ s.node.inner.clock.last ∨ t ∈ s.loaded

/-- Entries are not ahead of the clock, and claims are not unless they were loaded. -/
structure Inv (x : Crypto) (S : List Envelope) (s : Boot) : Prop where
  known : s.node.inner.claims.Known x S
  kv : ∀ e ∈ s.node.store.kv.values, e.hlc ≤ s.node.inner.clock.last
  held : ∀ task me r, s.node.inner.claims.mine task me = some r → s.Reached r.claim.renewed
  stored : ∀ env ∈ s.node.store.claims.values,
    env ∈ S ∧ ∀ r, readClaim x env = .ok r → s.Reached r.claim.renewed

variable {m : Node} {wall : ℕ → ℕ} {env : Envelope} {wallMs : ℕ} {task : String}

theorem Inv.grows (h : Inv x S s) (hg : Grows x S s.node m) : Inv x S ⟨m, s.loaded⟩ where
  known task me r hr := (hg.claims task me r hr).elim (h.known task me r) And.left
  kv e he := (hg.kv e he).elim (fun he => (h.kv e he).trans hg.clock) id
  held task me r hr := (hg.claims task me r hr).elim
    (fun hr => (h.held task me r hr).imp_left fun hle => hle.trans hg.clock)
    fun hnew => .inl hnew.2
  stored env henv := (hg.table env henv).elim
    (fun henv => ⟨(h.stored env henv).1, fun r hr =>
      ((h.stored env henv).2 r hr).imp_left fun hle => hle.trans hg.clock⟩)
    fun hnew => ⟨hnew.1, fun r hr => .inl (hnew.2 r hr)⟩

/-- The timestamps of the entries are observed in turn, and nothing else changes the clock. -/
theorem hydrate_frame (wall : ℕ → ℕ) (i : ℕ) (inner : Inner)
    (items : List (String × String × KvEntry)) :
    (hydrate x wall i inner items).claims = inner.claims ∧ (hydrate x wall i inner items).clock =
        (observes wall i (items.map (·.2.2.hlc))).foldl Clock.perform inner.clock := by
  induction items generalizing i inner with
  | nil => exact ⟨rfl, rfl⟩
  | cons item items ih => exact ih (i + 1) _

theorem mem_stamps_observes {i : ℕ} {ts : List Hlc} {t : Hlc} (h : t ∈ ts)
    (c : Clock) : t ∈ c.stamps (observes wall i ts) := by
  induction ts generalizing i c with
  | nil => cases h
  | cons a ts ih =>
    rcases mem_cons.1 h with rfl | h
    · exact mem_cons_self
    · exact mem_cons_of_mem _ (ih h _)

theorem mem_renewals {store : NodeStore} {r : ClaimRecord}
    (henv : env ∈ store.loadClaims) (hr : readClaim x env = .ok r) :
    r.claim.renewed ∈ renewals x store :=
  mem_map.2 ⟨r, mem_filterMap.2 ⟨env, henv, by rw [hr]; rfl⟩, rfl⟩

theorem grows_call {c : NodeCall} (hlimit : s.WithinLimit x (.call c wall))
    (hS : ∀ env, c = .ingestClaim env → env ∈ S) :
    Grows x S s.node (s.node.perform x ⟨c, wall, allCommit⟩) := by
  unfold WithinLimit at hlimit
  cases c with
  | ingestManifest env => exact Grows.ingestManifest s.node allCommit env
  | ingestClaim env => exact Grows.ingestClaim (hS env rfl) wall hlimit
  | kvPut ns key value exp =>
    have hfirst : Grows x S s.node (s.node.kvPutEntry (wall 0) true ns key value exp).1 :=
      Grows.kvPutEntry (Runs.Meets.head hlimit) ns key value exp
    show Grows x S s.node (s.node.kvPut x wall allCommit ns key value exp).1
    unfold kvPut
    dsimp only [clockCalls] at hlimit ⊢
    split_ifs at hlimit ⊢
    · exact hfirst
    · exact hfirst.trans (Grows.kvPutEntry (Runs.Meets.tail hlimit rfl).head _ key none none)
  | kvPutWithMetadata ns key value exp metadata =>
    have hfirst : Grows x S s.node (s.node.kvPutEntry (wall 0) true ns key value exp).1 :=
      Grows.kvPutEntry (Runs.Meets.head hlimit) ns key value exp
    exact hfirst.trans (Grows.kvPutEntry (Runs.Meets.tail hlimit rfl).head _ key metadata exp)
  | kvMergeRemote ns items => exact Grows.kvMergeFrom hlimit
  | gc => exact Grows.gc s.node (wall 0)

/-! ### Timestamps -/

/-- The wall clock, or the clock, has passed the claims that were loaded. -/
def Passed (s : Boot) (wallMs : ℕ) : Prop :=
  ∀ t ∈ s.loaded, t ≤ s.node.inner.clock.last ∨ t.wallMs < wallMs

theorem lt_now_of_reached (hfit : s.node.inner.clock.Fits (.now wallMs))
    (hpassed : s.Passed wallMs) {t : Hlc} (ht : s.Reached t) :
    t < (s.node.inner.clock.now wallMs).last := by
  have hlast : t ≤ s.node.inner.clock.last → t < (s.node.inner.clock.now wallMs).last :=
    fun hle => hle.trans_lt (Clock.lt_now hfit)
  rcases ht with hle | hmem
  · exact hlast hle
  · exact (hpassed t hmem).elim hlast Clock.lt_now_of_wallMs_lt

theorem Inv.before (h : Inv x S s) (hfit : s.node.inner.clock.Fits (.now wallMs))
    (hpassed : s.Passed wallMs) : s.node.store.Before x (s.node.inner.clock.now wallMs).last := by
  refine ⟨fun e he => (h.kv e he).trans_lt (Clock.lt_now hfit), fun env henv r hr => ?_⟩
  have hread := Fallible.toOption_eq_some.1 hr
  have hlt := lt_now_of_reached hfit hpassed ((h.stored env henv).2 r hread)
  exact ⟨(readClaim_checked hread).1.trans_lt hlt, hlt⟩

theorem Inv.before_second (h : Inv x S s) {w₀ w₁ : ℕ}
    (hlimit : Runs.Meets Clock.step Clock.Fits s.node.inner.clock [.now w₀, .now w₁])
    (hpassed : s.Passed w₀) (ns key : String) (value : Option Bytes) (exp : Option ℕ) :
    (s.node.kvPutEntry w₀ true ns key value exp).1.store.Before x
      ((s.node.inner.clock.now w₀).now w₁).last := by
  have hnext : Inv x S ⟨(s.node.kvPutEntry w₀ true ns key value exp).1, s.loaded⟩ :=
    h.grows (Grows.kvPutEntry hlimit.head ns key value exp)
  exact hnext.before (hlimit.tail rfl).head fun t ht =>
    .inl (lt_now_of_reached hlimit.head hpassed (.inr ht)).le

/-! ### Turns -/

section

variable (hsha : x.CollisionFree (S.map digestInput)) (h : Inv x S s)

include hsha h

theorem Inv.reopen (hlimit : s.WithinLimit x (.reopen wall))
    (hm : s.node.reopened x wall = .ok m) : Inv x S ⟨m, renewals x s.node.store⟩ := by
  obtain ⟨items, hitems, hok⟩ := Fallible.bind_eq_ok.1 hm
  obtain rfl := Except.ok.inj hok
  obtain ⟨hclaims, hclock⟩ := hydrate_frame (x := x) wall 0
    (bootInner x s.node.operator s.node.store) items
  have hcalls : Runs.Meets Clock.step Clock.Fits Clock.new
      (observes wall 0 (items.map (·.2.2.hlc))) := by
    have hlimit' := hlimit
    unfold WithinLimit clockCalls at hlimit'
    rw [hitems] at hlimit'
    exact hlimit'
  have hknown : (ClaimSet.new.ingestAll x s.node.store.loadClaims).Known x
      s.node.store.loadClaims := by
    have hsub : s.node.store.loadClaims.map digestInput ⊆ S.map digestInput :=
      map_subset _ fun env henv => (h.stored env henv).1
    exact ClaimSet.known_new.ingestAll (fun a ha b hb => hsha a (hsub ha) b (hsub hb))
      fun env henv => henv
  refine ⟨?_, fun e he => ?_, fun task me r hr => ?_, fun env henv => ?_⟩
  · dsimp only
    rw [hclaims]
    exact ClaimSet.known_new.ingestAll hsha fun env henv => (h.stored env henv).1
  · obtain ⟨k, hk⟩ := (mem_values _).1 he
    obtain ⟨item, hitem, hsplit⟩ := Fallible.exists_mem_of_mapM hitems
      ((get_eq_some_iff _).1 hk)
    have hentry : item.2.2 = e := by
      unfold NodeStore.splitKey at hsplit
      split at hsplit
      · obtain rfl := Except.ok.inj hsplit
        rfl
      · cases hsplit
    rw [hclock]
    refine (Clock.last_le_foldl hcalls).2 _ (mem_stamps_observes ?_ _)
    exact mem_map.2 ⟨item, hitem, by rw [hentry]⟩
  · dsimp only at hr
    rw [hclaims] at hr
    obtain ⟨env, henv, hread, -⟩ := mem_claimsOf.1 (hknown task me r hr)
    exact .inr (mem_renewals henv hread)
  · exact ⟨(h.stored env henv).1, fun r hr => .inr (mem_renewals henv hr)⟩

theorem Inv.step (hS : ∀ env ∈ delivered [turn], env ∈ S) (hlimit : s.WithinLimit x turn)
    (ht : s.step x turn = some t) : Inv x S t := by
  cases turn with
  | call c wall =>
    cases ht
    exact h.grows (grows_call hlimit fun env hc => hS env (by simp [delivered, hc]))
  | claimTry task ttlMs wall env =>
    obtain ⟨m, hm, rfl⟩ := map_eq_some_iff.1 ht
    dsimp only [WithinLimit, clockCalls] at hlimit
    unfold claimTry at hm
    split_ifs at hm with hopen
    · cases hm
      exact h
    · rw [if_neg hopen] at hlimit
      exact h.grows (Grows.issueClaim (hS env (by simp [delivered])) hlimit hm)
  | claimRenew task release wall env =>
    obtain ⟨m, hm, rfl⟩ := map_eq_some_iff.1 ht
    dsimp only [WithinLimit, clockCalls] at hlimit
    unfold claimRenew at hm
    cases hrec : s.node.inner.claims.mine task s.node.id with
    | none =>
      rw [hrec] at hm
      cases hm
      exact h
    | some rec =>
      rw [hrec] at hm
      rw [hrec, isSome_some, if_pos rfl] at hlimit
      exact h.grows (Grows.issueClaim (hS env (by simp [delivered])) hlimit hm)
  | reopen wall =>
    obtain ⟨m, hm, rfl⟩ := map_eq_some_iff.1 ht
    exact h.reopen hsha hlimit (Fallible.toOption_eq_some.1 hm)

/-- A new hold outranks the one of the same node that came before. -/
theorem Inv.accepts_claimTry {ttlMs : ℕ} (henv : env ∈ S)
    (hfit : s.node.inner.clock.Fits (.now wallMs)) (hpassed : s.Passed wallMs) (httl : ttlMs ≠ 0)
    (hsealed : Node.Sealed x env
      (.make s.node.id task (s.node.inner.clock.now wallMs).last ttlMs)) :
    (s.node.inner.claims.ingest x env).2 = .ok .changed := by
  refine ClaimSet.ingest_changed hsha h.known henv (hsealed.readClaim le_rfl httl) fun q hq => ?_
  obtain ⟨f, -, hread, -⟩ := mem_claimsOf.1 (h.known _ _ _ hq)
  have hlt := lt_now_of_reached hfit hpassed (h.held _ _ _ hq)
  exact Prod.Lex.toLex_lt_toLex.2 (.inl ((readClaim_checked hread).1.trans_lt hlt))

/-- A renewal or a release outranks what it renews. -/
theorem Inv.accepts_claimRenew {release : Bool} (henv : env ∈ S)
    (hfit : s.node.inner.clock.Fits (.now wallMs)) (hpassed : s.Passed wallMs) {rec : ClaimRecord}
    (hrec : s.node.inner.claims.mine task s.node.id = some rec) (hsealed : Node.Sealed x env
      (rec.claim.renew (s.node.inner.clock.now wallMs).last release)) :
    (s.node.inner.claims.ingest x env).2 = .ok .changed := by
  obtain ⟨f, -, hread, htask, hholder⟩ := mem_claimsOf.1 (h.known _ _ _ hrec)
  obtain ⟨hacquired, httl⟩ := readClaim_checked hread
  have hlt := lt_now_of_reached hfit hpassed (h.held _ _ _ hrec)
  refine ClaimSet.ingest_changed hsha h.known henv
    (hsealed.readClaim (hacquired.trans hlt.le) httl) fun q hq => ?_
  have hsame : s.node.inner.claims.mine task s.node.id = some q := by
    rw [← htask, ← hholder]
    exact hq
  obtain rfl := some.inj (hrec.symm.trans hsame)
  exact Prod.Lex.toLex_lt_toLex.2 (.inr ⟨rfl, hlt⟩)

theorem Inv.ordered (hS : ∀ env ∈ delivered [turn], env ∈ S) (hlimit : s.WithinLimit x turn)
    (hcaught : s.CaughtUp turn) : s.Ordered x turn := by
  cases turn with
  | call c wall =>
    refine ⟨?_, trivial⟩
    cases c with
    | kvPut ns key value exp =>
      have hpassed : s.Passed (wall 0) := hcaught (wall 0) rfl
      dsimp only [WithinLimit, clockCalls] at hlimit
      intro p hp
      rcases mem_cons.1 hp with rfl | hp
      · exact h.before hlimit.head hpassed
      · split_ifs at hp hlimit
        · cases hp
        · cases mem_singleton.1 hp
          exact h.before_second hlimit hpassed ns key value exp
    | kvPutWithMetadata ns key value exp metadata =>
      have hpassed : s.Passed (wall 0) := hcaught (wall 0) rfl
      intro p hp
      rcases mem_pair.1 hp with rfl | rfl
      · exact h.before hlimit.head hpassed
      · exact h.before_second hlimit hpassed ns key value exp
    | ingestManifest env => exact fun p hp => nomatch hp
    | ingestClaim env => exact fun p hp => nomatch hp
    | kvMergeRemote ns items => exact fun p hp => nomatch hp
    | gc => exact fun p hp => nomatch hp
  | claimTry task ttlMs wall env =>
    dsimp only [WithinLimit, clockCalls] at hlimit
    dsimp only [Ordered, issued, Accepted]
    dsimp only [CaughtUp, reading] at hcaught
    split_ifs at hlimit hcaught ⊢ with hheld
    · exact ⟨by simp, fun hopen => absurd hheld (by simp [hopen])⟩
    · have hpassed : s.Passed (wall 1) := hcaught (wall 1) rfl
      refine ⟨fun p hp => ?_, fun _ httl hsealed => ?_⟩
      · cases mem_singleton.1 hp
        exact h.before hlimit.head hpassed
      · exact h.accepts_claimTry hsha (hS env (by simp [delivered])) hlimit.head hpassed httl
          hsealed
  | claimRenew task release wall env =>
    dsimp only [WithinLimit, clockCalls] at hlimit
    dsimp only [Ordered, issued, Accepted]
    dsimp only [CaughtUp, reading] at hcaught
    cases hrec : s.node.inner.claims.mine task s.node.id with
    | none => simp
    | some rec =>
      rw [hrec, isSome_some, if_pos rfl] at hlimit hcaught
      have hpassed : s.Passed (wall 0) := hcaught (wall 0) rfl
      refine ⟨fun p hp => ?_, fun rec' hrec' hsealed => ?_⟩
      · cases mem_singleton.1 hp
        exact h.before hlimit.head hpassed
      · cases hrec'
        exact h.accepts_claimRenew hsha (hS env (by simp [delivered])) hlimit.head hpassed hrec
          hsealed
  | reopen wall => exact ⟨fun p hp => (nomatch hp), trivial⟩

end

theorem mem_delivered_of_mem (h : turn ∈ turns)
    (henv : env ∈ delivered [turn]) : env ∈ delivered turns := by
  obtain ⟨a, ha, hf⟩ := mem_filterMap.1 henv
  obtain rfl := mem_singleton.1 ha
  exact mem_filterMap.2 ⟨a, h, hf⟩

/-- **Timestamps keep increasing across restarts**, in every run in which, whenever the node issues
one, the clock or the wall time has passed the claims that the last restart loaded. -/
theorem ordered_of_caughtUp {id : PublicId} {operator : SignerId}
    (hsha : x.CollisionFree ((delivered turns).map digestInput))
    (hm : Runs.Meets (step x) (fun s turn => s.WithinLimit x turn ∧ s.CaughtUp turn)
      (init id operator) turns) : Runs.Meets (step x) (Ordered x) (init id operator) turns := by
  have hinit : Inv x (delivered turns) (init id operator) :=
    ⟨ClaimSet.known_new, fun e he => (nomatch he), fun task me r hr => (nomatch hr),
      fun env henv => (nomatch henv)⟩
  refine Runs.Meets.of_invariant (P := Inv x (delivered turns)) (fun s turn t hs hok ht => ?_)
    (fun s turn hs hok => ?_) hinit (hm.and_mem fun turn h => h)
  · exact hs.step hsha (fun env => mem_delivered_of_mem hok.2) hok.1.1 ht
  · exact hs.ordered hsha (fun env => mem_delivered_of_mem hok.2) hok.1.1 hok.1.2

/-- A hold taken after the clock was pulled ahead by another node. -/
def aheadHold : Claim := .make (sampleHolder 1) "t" ⟨100000, 2⟩ 60000

/-- At second 1 a claim of second 100 comes in and a task is taken; after a restart the hold is
renewed at `wallMs`. -/
def restartRun (wallMs : ℕ) : List NodeTurn :=
  [.call (.ingestClaim (sampleClaim (.make (sampleHolder 2) "r" ⟨100000, 0⟩ 60000))) fun _ => 1000,
    .claimTry "t" 60000 (fun _ => 1000) (sampleClaim aheadHold),
    .reopen fun _ => 2000,
    .claimRenew "t" false (fun _ => wallMs) (sampleClaim (aheadHold.renew ⟨wallMs, 0⟩ false))]

/-- The wall clock has passed the stored claims. -/
theorem ordered_restartRun_late : Runs.Meets (step sampleCrypto) (Ordered sampleCrypto)
    (init (sampleHolder 1) sampleOperator) (restartRun 200000) :=
  ordered_of_caughtUp (by decide +kernel) (by decide +kernel)

/-- It has not: the renewal is stamped before the hold. -/
theorem not_ordered_restartRun_early : ¬ Runs.Meets (step sampleCrypto) (Ordered sampleCrypto)
    (init (sampleHolder 1) sampleOperator) (restartRun 3000) := by
  decide +kernel

end Boot

end RandallFlare
