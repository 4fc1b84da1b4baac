import Mathlib.Data.Finset.Basic
import Mathlib.Data.Set.Insert
import Mathlib.Data.List.Infix
import Mathlib.Logic.Function.Basic
import Mathlib.Tactic

/-!
# Logs replicated under numbered epochs

An abstract account of leader-based replication.  Every node holds a log and an epoch; in each
epoch at most one node is elected, by a quorum of votes, and from then on only that node extends
the log of its epoch.  The state also remembers what happened: who stood for election with which
log, who voted for whom with which log, which log each leader was elected with (`start`) and has
by now (`lead`), and which prefixes of it other nodes acknowledged.

* `Step` lists what a node may do: learn a later epoch, stand, vote, be elected, extend the log of
  its own epoch, replace its log by a prefix of its epoch's log, acknowledge a prefix;
* `Inv` is the inductive invariant;
* `Le` is the order in which the memory of a state grows.

Entries are of any type `A` with an epoch `ep`, quorums any family of finite sets.
-/

namespace EpochLog

variable {N A : Type*}

/-- The nodes' epochs and logs, and the memory of elections, votes and acknowledgements. -/
structure State (N A : Type*) where
  epoch : N → ℕ
  log : N → List A
  /-- The node elected in an epoch. -/
  elected : ℕ → Option N
  /-- The log the leader of an epoch was elected with. -/
  start : ℕ → List A
  /-- The log the leader of an epoch has reached. -/
  lead : ℕ → List A
  /-- Candidate, epoch, and the candidate's log when it stood. -/
  stood : Set (N × ℕ × List A)
  /-- Voter, epoch, candidate, and the voter's log when it voted. -/
  votes : Set (N × ℕ × N × List A)
  /-- Node, epoch, and how much of the epoch's log the node said to hold. -/
  acks : Set (N × ℕ × ℕ)

/-- Nothing has happened. -/
def init : State N A where
  epoch _ := 0
  log _ := []
  elected _ := none
  start _ := []
  lead _ := []
  stood := ∅
  votes := ∅
  acks := ∅

/-! ### What nodes do -/

/-- Node `v` learns of epoch `e`. -/
def State.bump [DecidableEq N] (s : State N A) (v : N) (e : ℕ) : State N A :=
  { s with epoch := Function.update s.epoch v e }

/-- Node `c` stands for election in its epoch. -/
def State.stand (s : State N A) (c : N) : State N A :=
  { s with stood := insert (c, s.epoch c, s.log c) s.stood }

/-- Node `v` votes for `c` in its epoch. -/
def State.vote (s : State N A) (v c : N) : State N A :=
  { s with votes := insert (v, s.epoch v, c, s.log v) s.votes }

/-- Node `c` becomes the leader of its epoch. -/
def State.elect (s : State N A) (c : N) : State N A :=
  { s with
    elected := Function.update s.elected (s.epoch c) (some c)
    start := Function.update s.start (s.epoch c) (s.log c)
    lead := Function.update s.lead (s.epoch c) (s.log c) }

/-- The leader `c` appends `a` to the log of its epoch. -/
def State.extend [DecidableEq N] (s : State N A) (c : N) (a : A) : State N A :=
  { s with
    log := Function.update s.log c (s.log c ++ [a])
    lead := Function.update s.lead (s.epoch c) (s.log c ++ [a]) }

/-- Node `v` replaces its log. -/
def State.adopt [DecidableEq N] (s : State N A) (v : N) (L : List A) : State N A :=
  { s with log := Function.update s.log v L }

/-- Node `v` acknowledges `m` entries of its epoch's log. -/
def State.ack (s : State N A) (v : N) (m : ℕ) : State N A :=
  { s with acks := insert (v, s.epoch v, m) s.acks }

/-- The order in which the memory of a state grows. -/
structure Le (s t : State N A) : Prop where
  epoch : ∀ v, s.epoch v ≤ t.epoch v
  elected : ∀ e c, s.elected e = some c → t.elected e = some c ∧ t.start e = s.start e
  lead : ∀ e, s.lead e <+: t.lead e
  stood : s.stood ⊆ t.stood
  votes : s.votes ⊆ t.votes
  acks : s.acks ⊆ t.acks

theorem Le.refl (s : State N A) : Le s s :=
  ⟨fun _ => le_rfl, fun _ _ h => ⟨h, rfl⟩, fun _ => List.prefix_refl _, subset_rfl, subset_rfl,
    subset_rfl⟩

theorem Le.trans {s t u : State N A} (h : Le s t) (k : Le t u) : Le s u where
  epoch v := (h.epoch v).trans (k.epoch v)
  elected e c hc := by
    obtain ⟨h₁, h₂⟩ := h.elected e c hc
    obtain ⟨k₁, k₂⟩ := k.elected e c h₁
    exact ⟨k₁, k₂.trans h₂⟩
  lead e := (h.lead e).trans (k.lead e)
  stood := h.stood.trans k.stood
  votes := h.votes.trans k.votes
  acks := h.acks.trans k.acks

theorem Le.elected_ne {s t : State N A} (h : Le s t) {e : ℕ} (he : s.elected e ≠ none) :
    t.elected e ≠ none ∧ t.start e = s.start e := by
  obtain ⟨c, hc⟩ := Option.ne_none_iff_exists'.1 he
  obtain ⟨h₁, h₂⟩ := h.elected e c hc
  exact ⟨by rw [h₁]; exact Option.some_ne_none c, h₂⟩

section

variable (ep : A → ℕ)

/-- The epoch of the last entry, zero for the empty log. -/
def lastEp (L : List A) : ℕ := (L.getLast?.map ep).getD 0

@[simp] theorem lastEp_nil : lastEp ep ([] : List A) = 0 := rfl

@[simp] theorem lastEp_append_singleton (L : List A) (a : A) : lastEp ep (L ++ [a]) = ep a := by
  simp [lastEp]

/-- The log `L` is at least as up to date as `K`. -/
def UpToDate (L K : List A) : Prop :=
  lastEp ep K < lastEp ep L ∨ lastEp ep K = lastEp ep L ∧ K.length ≤ L.length

/-- Each prefix of `L` is a prefix of the log of the epoch its last entry belongs to. -/
def Sound (s : State N A) (L : List A) : Prop :=
  ∀ P a, P ++ [a] <+: L → P ++ [a] <+: s.lead (ep a)

/-- The first `m` entries of the log of epoch `e` are still in `L`, except where the leader of a
later epoch satisfying `later` was elected without them. -/
def Kept (s : State N A) (later : ℕ → Prop) (e m : ℕ) (L : List A) : Prop :=
  ∀ X, X <+: s.lead e → X.length ≤ m →
    X <+: L ∨ ∃ d, e < d ∧ later d ∧ s.elected d ≠ none ∧ ¬ X <+: s.start d

variable {ep}

variable {s t : State N A} {L K : List A}

theorem Sound.mono (h : Sound ep s L) (hle : ∀ e, s.lead e <+: t.lead e) : Sound ep t L :=
  fun P a hP => (h P a hP).trans (hle (ep a))

theorem Sound.anti (h : Sound ep s L) (hK : K <+: L) : Sound ep s K :=
  fun P a hP => h P a (hP.trans hK)

/-- Two sound logs that have entries of one epoch at one place agree up to that place. -/
theorem Sound.agree (hK : Sound ep s K) (hL : Sound ep s L)
    {P Q : List A} {a b : A} (hP : P ++ [a] <+: K) (hQ : Q ++ [b] <+: L)
    (hlen : P.length = Q.length) (hep : ep a = ep b) : P ++ [a] = Q ++ [b] := by
  have h₁ := hK P a hP
  have h₂ := hL Q b hQ
  rw [hep] at h₁
  exact (List.prefix_of_prefix_length_le h₁ h₂ (by simp [hlen])).eq_of_length (by simp [hlen])

theorem Kept.mono (hle : Le s t) {later later' : ℕ → Prop} {e m : ℕ}
    {L' : List A} (h : Kept s later e m L) (hm : m ≤ (s.lead e).length)
    (hlater : ∀ d, later d → later' d) (hL : L <+: L') : Kept t later' e m L' := by
  intro X hX hlen
  have hX' : X <+: s.lead e := List.prefix_of_prefix_length_le hX (hle.lead e) (hlen.trans hm)
  rcases h X hX' hlen with hin | ⟨d, hed, hd, hne, hnot⟩
  · exact .inl (hin.trans hL)
  · obtain ⟨h₁, h₂⟩ := hle.elected_ne hne
    exact .inr ⟨d, hed, hlater d hd, h₁, by rwa [h₂]⟩

variable (ep) (Quorum : Finset N → Prop)

/-- What node `v` may do. -/
inductive Step [DecidableEq N] (v : N) : State N A → State N A → Prop
  /-- An epoch is learned only from below. -/
  | bump (s : State N A) (e : ℕ) (h : s.epoch v ≤ e) : Step v s (s.bump v e)
  /-- A node stands with one log in an epoch. -/
  | stand (s : State N A) (h : ∀ L, (v, s.epoch v, L) ∈ s.stood → L = s.log v) :
      Step v s (s.stand v)
  /-- A node votes for one candidate of its epoch at most, whose log is not behind its own. -/
  | vote (s : State N A) (c : N) (h : ∀ d L, (v, s.epoch v, d, L) ∈ s.votes → d = c)
      (hup : ∃ L, (c, s.epoch v, L) ∈ s.stood ∧ UpToDate ep L (s.log v)) : Step v s (s.vote v c)
  /-- A candidate that has not changed its log wins with the votes of a quorum. -/
  | elect (s : State N A) (Q : Finset N) (hQ : Quorum Q)
      (hnone : s.elected (s.epoch v) = none) (hstood : (v, s.epoch v, s.log v) ∈ s.stood)
      (hvotes : ∀ w ∈ Q, ∃ L, (w, s.epoch v, v, L) ∈ s.votes) : Step v s (s.elect v)
  /-- Only the leader of an epoch appends to its log. -/
  | extend (s : State N A) (a : A) (hc : s.elected (s.epoch v) = some v)
      (hlog : s.log v = s.lead (s.epoch v)) (ha : ep a = s.epoch v) : Step v s (s.extend v a)
  /-- A node adopts a prefix of its epoch's log, giving up nothing it has in common with it. -/
  | adopt (s : State N A) (L : List A) (hne : s.elected (s.epoch v) ≠ none)
      (hL : L <+: s.lead (s.epoch v))
      (hkeep : ∀ P, P <+: s.log v → P <+: s.lead (s.epoch v) → P <+: L) : Step v s (s.adopt v L)
  /-- A node acknowledges what it holds of its epoch's log. -/
  | ack (s : State N A) (m : ℕ) (hne : s.elected (s.epoch v) ≠ none)
      (hm : m ≤ (s.lead (s.epoch v)).length) (hlog : (s.lead (s.epoch v)).take m <+: s.log v) :
      Step v s (s.ack v m)

/-- The inductive invariant. -/
structure Inv (s : State N A) : Prop where
  lead_nil : ∀ e, s.elected e = none → s.lead e = []
  start_prefix : ∀ e, s.start e <+: s.lead e
  start_lt : ∀ e, ∀ a ∈ s.start e, ep a < e
  lead_le : ∀ e, ∀ a ∈ s.lead e, ep a ≤ e
  lead_sound : ∀ e, Sound ep s (s.lead e)
  log_sound : ∀ v, Sound ep s (s.log v)
  log_le : ∀ v, ∀ a ∈ s.log v, ep a ≤ s.epoch v
  stood_le : ∀ c e L, (c, e, L) ∈ s.stood → e ≤ s.epoch c
  stood_unique : ∀ c e L K, (c, e, L) ∈ s.stood → (c, e, K) ∈ s.stood → L = K
  vote_le : ∀ v e c L, (v, e, c, L) ∈ s.votes → e ≤ s.epoch v
  vote_unique : ∀ v e c d L K, (v, e, c, L) ∈ s.votes → (v, e, d, K) ∈ s.votes → c = d
  vote_upToDate : ∀ v e c L, (v, e, c, L) ∈ s.votes → ∃ K, (c, e, K) ∈ s.stood ∧ UpToDate ep K L
  vote_sound : ∀ v e c L, (v, e, c, L) ∈ s.votes → Sound ep s L
  vote_kept : ∀ v e d m c L, (v, e, m) ∈ s.acks → (v, d, c, L) ∈ s.votes → e < d →
    Kept s (· ≤ d) e m L
  ack_le : ∀ v e m, (v, e, m) ∈ s.acks →
    e ≤ s.epoch v ∧ s.elected e ≠ none ∧ m ≤ (s.lead e).length
  ack_kept : ∀ v e m, (v, e, m) ∈ s.acks → Kept s (· ≤ s.epoch v) e m (s.log v)
  elected_le : ∀ e c, s.elected e = some c → e ≤ s.epoch c
  elected_quorum : ∀ e c, s.elected e = some c → ∃ Q, Quorum Q ∧ ∀ v ∈ Q, ∃ L,
    (v, e, c, L) ∈ s.votes ∧ UpToDate ep (s.start e) L ∧
      ∀ d m, (v, d, m) ∈ s.acks → d < e → Kept s (· < e) d m L

end

end EpochLog
