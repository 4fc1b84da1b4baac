import RandallFlare.Claims.Exchange

/-!
# Renewing a hold and giving it up

Among the live claims of a task the earliest acquisition holds it, and of equal acquisitions the one
with the lowest digest.  A renewal keeps the acquisition but is a new envelope with a digest of its
own, so that it can lose, or take, a task that is contended from the same instant.  A release
outranks the hold it ends only as long as it is remembered: `gc` forgets it at once, and an older
envelope of the same hold that still circulates is then news.

* `holds_renewal_iff`: when a renewal leaves the holder of a task as it is;
* `Tenure.step`: a set of claims that ingests and collects garbage at times that do not decrease;
* `staysSuperseded_of_spares`: a run that forgets no record before its predecessors are dead.
-/

namespace RandallFlare

open Envelope Runs List Option

variable {x : Crypto} {S : List Envelope} {t : Hlc}

theorem Claim.live_renew {c : Claim} {nowMs : ℕ} (h : c.live nowMs)
    (ht : c.renewed ≤ t) : (c.renew t false).live nowMs := by
  have hwall := Hlc.wallMs_le_of_le ht
  simp only [live, Bool.and_eq_true, Bool.not_eq_true', decide_eq_true_eq] at h ⊢
  refine ⟨rfl, ?_⟩
  simp only [expiresAtMs, saturatingAdd, renew] at h ⊢
  omega

theorem Claim.live_eq_false_of_le {c : Claim} {nowMs later : ℕ} (h : c.live nowMs = false)
    (hle : nowMs ≤ later) : c.live later = false := by
  simp only [live, Bool.and_eq_false_iff, Bool.not_eq_false', decide_eq_false_iff_not] at h ⊢
  exact h.imp id (by omega)

def sampleClaimRecord (c : Claim) : ClaimRecord :=
  ⟨c, (sampleClaim c).digest sampleCrypto, sampleClaim c⟩

namespace ClaimSet

variable {s : ClaimSet} {task : String} {h : PublicId} {nowMs : ℕ} {p r w : ClaimRecord}

/-! ### Renewals -/

/-- `me` holds the task. -/
def holds (s : ClaimSet) (task : String) (me : PublicId) (nowMs : ℕ) : Bool :=
  ((s.winner task nowMs).map fun r => decide (r.claim.holder = me)).getD false

theorem holds_iff : s.holds task h nowMs ↔
    (s.winner task nowMs).map (·.claim.holder) = some h := by
  unfold holds
  cases s.winner task nowMs with
  | none => simp
  | some r => simp

/-- The digest of the renewal `r` does not move its holder to the other side of a claim it
contends with: of the claims of the same acquisition if it holds the task, of the holder's if
another one does. -/
def Unrivalled (s : ClaimSet) (task : String) (nowMs : ℕ) (w r : ClaimRecord) : Prop :=
  (w.claim.holder = r.claim.holder → ∀ me q, me ≠ r.claim.holder → s.mine task me = some q →
    q.live nowMs → q.claim.acquired = r.claim.acquired →
    r.digest.toNat ≤ q.digest.toNat) ∧
  (w.claim.holder ≠ r.claim.holder → r.live nowMs → w.precedence < r.precedence)

theorem mine_renewal (hsha : x.CollisionFree (S.map digestInput)) (hs : s.Known x S)
    {env : Envelope} (henv : env ∈ S) (hp : s.mine task h = some p)
    (hread : readClaim x env = .ok r) (hr : r.claim = p.claim.renew t false)
    (ht : p.claim.renewed < t) (me : PublicId) :
    (s.ingest x env).1.mine task me = if me = h then some r else s.mine task me := by
  obtain ⟨-, -, -, htask, hholder⟩ := mem_claimsOf.1 (hs _ _ _ hp)
  have hrank : p.rank < r.rank := by
    show toLex (p.claim.acquired, p.claim.renewed) < toLex (r.claim.acquired, r.claim.renewed)
    rw [hr]
    exact Prod.Lex.toLex_lt_toLex.2 (.inr ⟨rfl, ht⟩)
  have hkey : r.claim.task = task ∧ r.claim.holder = me ↔ me = h := by
    rw [hr]
    exact ⟨fun hk => hk.2.symm.trans hholder, fun hk => ⟨htask, hholder.trans hk.symm⟩⟩
  rw [mine_ingest hsha hs henv hread, if_congr hkey rfl rfl]
  split_ifs with hme
  · rw [hme, hp]
    exact if_pos hrank
  · rfl

/-- **When a renewal leaves it as it is whether its holder holds the task.** -/
theorem holds_renewal_iff (hsha : x.CollisionFree (S.map digestInput))
    (hs : s.Known x S) {env : Envelope} (henv : env ∈ S) (hp : s.mine task h = some p)
    (hread : readClaim x env = .ok r) (hr : r.claim = p.claim.renew t false)
    (ht : p.claim.renewed < t) (hw : s.winner task nowMs = some w) :
    (s.ingest x env).1.holds task h nowMs = s.holds task h nowMs ↔ s.Unrivalled task nowMs w r := by
  have hmine := mine_renewal hsha hs henv hp hread hr ht
  have hacq : r.claim.acquired = p.claim.acquired := by rw [hr]; rfl
  have hrh : r.claim.holder = h := by
    rw [hr]
    exact (mem_claimsOf.1 (hs _ _ _ hp)).choose_spec.2.2.2
  have hprec : ∀ a b : ClaimRecord, a.precedence ≤ b.precedence ↔
      a.claim.acquired < b.claim.acquired ∨ a.claim.acquired = b.claim.acquired ∧
        a.digest.toNat ≤ b.digest.toNat := fun a b => Prod.Lex.toLex_le_toLex
  -- The renewal holds the task if it is live and precedes every other live claim.
  have hafter : (s.ingest x env).1.holds task h nowMs ↔ r.live nowMs ∧
      ∀ me q, me ≠ h → s.mine task me = some q → q.live nowMs →
        r.precedence ≤ q.precedence := by
    rw [holds_iff, holder_eq_some hsha (hs.ingest hsha henv)]
    constructor
    · rintro ⟨r', hr', hlive, hfirst⟩
      rw [hmine, if_pos rfl] at hr'
      cases hr'
      exact ⟨hlive, fun me q hne hq => hfirst me q (by rw [hmine, if_neg hne]; exact hq)⟩
    · rintro ⟨hlive, hfirst⟩
      refine ⟨r, by rw [hmine, if_pos rfl], hlive, fun me q hq hqlive => ?_⟩
      rw [hmine] at hq
      split_ifs at hq with hne
      · rw [some.inj hq]
      · exact hfirst me q hne hq hqlive
  obtain ⟨⟨me, hwmine⟩, hwlive, hwfirst⟩ := (winner_eq_some hsha hs).1 hw
  obtain ⟨-, -, -, -, rfl⟩ := mem_claimsOf.1 (hs _ _ _ hwmine)
  unfold Unrivalled
  rw [hrh]
  by_cases hholder : w.claim.holder = h
  · -- The holder renews: its claim stays live, and only a new digest can count against it.
    have hwp : w = p := some.inj (hwmine.symm.trans (hholder ▸ hp))
    have hbefore : s.holds task h nowMs := by
      rw [holds_iff, hw, map_some, hholder]
    have hrlive : r.live nowMs := by
      show r.claim.live nowMs
      rw [hr]
      exact Claim.live_renew (hwp ▸ hwlive) ht.le
    rw [hbefore, hafter]
    constructor
    · rintro ⟨-, hfirst⟩
      refine ⟨fun _ me q hne hq hqlive heq => ?_, fun hne => absurd hholder hne⟩
      rcases (hprec r q).1 (hfirst me q hne hq hqlive) with hlt | hle
      · exact absurd heq hlt.ne'
      · exact hle.2
    · rintro ⟨hsame, -⟩
      refine ⟨hrlive, fun me q hne hq hqlive => (hprec r q).2 ?_⟩
      have hwq := (hprec w q).1 (hwfirst me q hq hqlive)
      rw [hwp, ← hacq] at hwq
      exact hwq.imp id fun heq => ⟨heq.1, hsame hholder me q hne hq hqlive heq.1.symm⟩
  · -- Another one renews: it takes the task if it comes before the holder, who is first.
    have hbefore : s.holds task h nowMs = false := by
      rw [← Bool.not_eq_true, holds_iff, hw, map_some, some.injEq]
      exact hholder
    rw [hbefore, ← Bool.not_eq_true, hafter, not_and]
    constructor
    · intro hno
      refine ⟨fun heq => absurd heq hholder, fun _ hlive => lt_of_not_ge fun hle => ?_⟩
      exact hno hlive fun me q _ hq hqlive => hle.trans (hwfirst me q hq hqlive)
    · rintro ⟨-, hlater⟩ hlive hfirst
      exact absurd (hfirst _ w hholder hwmine hwlive) (hlater hholder hlive).not_ge

/-- The first of two holders renews. -/
theorem holds_renewal_firstHold :
    ((new.ingestAll sampleCrypto [sampleClaim firstHold, sampleClaim secondHold]).ingest
      sampleCrypto (sampleClaim (firstHold.renew ⟨2000, 0⟩ false))).1.holds "t" (sampleHolder 1)
      4000 = (new.ingestAll sampleCrypto [sampleClaim firstHold, sampleClaim secondHold]).holds
        "t" (sampleHolder 1) 4000 := by
  have hsha : sampleCrypto.CollisionFree ([sampleClaim firstHold, sampleClaim secondHold,
      sampleClaim (firstHold.renew ⟨2000, 0⟩ false)].map digestInput) := by
    decide +kernel
  have hs : (new.ingestAll sampleCrypto [sampleClaim firstHold, sampleClaim secondHold]).Known
      sampleCrypto _ := known_new.ingestAll hsha fun e he => mem_append_left [_] he
  have hrenewal : readClaim sampleCrypto (sampleClaim (firstHold.renew ⟨2000, 0⟩ false)) =
      .ok (sampleClaimRecord (firstHold.renew ⟨2000, 0⟩ false)) := by decide +kernel
  have hmine : (new.ingestAll sampleCrypto
      [sampleClaim firstHold, sampleClaim secondHold]).mine "t" (sampleHolder 1) =
      some (sampleClaimRecord firstHold) := by decide +kernel
  have hw : (new.ingestAll sampleCrypto
      [sampleClaim firstHold, sampleClaim secondHold]).winner "t" 4000 =
      some (sampleClaimRecord firstHold) := by decide +kernel
  refine (holds_renewal_iff hsha hs (by simp) hmine hrenewal (t := ⟨2000, 0⟩) rfl (by decide)
    hw).2 ⟨fun _ me q hne hq _ hacq => ?_, fun hne => absurd rfl hne⟩
  -- the other holder acquired the task later
  obtain ⟨e, he, hread, -, hme⟩ := mem_claimsOf.1 (hs _ _ _ hq)
  have hothers : ∀ e ∈ [sampleClaim firstHold, sampleClaim secondHold,
      sampleClaim (firstHold.renew ⟨2000, 0⟩ false)],
      ∀ q ∈ (readClaim sampleCrypto e).toOption, q.claim.holder ≠ sampleHolder 1 →
        q.claim.acquired ≠ ⟨1000, 0⟩ := by decide +kernel
  exact absurd hacq (hothers e he q (by rw [hread]; rfl) (hme ▸ hne))

/-- Two holders that acquired a task at the same instant, the first of which has renewed. -/
def sameInstant : List Envelope :=
  [sampleClaim (firstHold.renew ⟨2000, 0⟩ false),
    sampleClaim (.make (sampleHolder 2) "t" ⟨1000, 0⟩ 60000)]

/-- The holder renews once more and loses the task. -/
theorem renewal_loses_sameInstant :
    (new.ingestAll sampleCrypto sameInstant).mine "t" (sampleHolder 1) =
        some (sampleClaimRecord (firstHold.renew ⟨2000, 0⟩ false)) ∧
      readClaim sampleCrypto (sampleClaim (firstHold.renew ⟨70000, 0⟩ false)) =
        .ok (sampleClaimRecord ((firstHold.renew ⟨2000, 0⟩ false).renew ⟨70000, 0⟩ false)) ∧
      (new.ingestAll sampleCrypto sameInstant).holds "t" (sampleHolder 1) 70000 ∧
      ((new.ingestAll sampleCrypto sameInstant).ingest sampleCrypto
        (sampleClaim (firstHold.renew ⟨70000, 0⟩ false))).1.holds "t" (sampleHolder 1) 70000 =
          false := by
  decide +kernel

end ClaimSet

/-! ### Releases -/

/-- `gc` keeps the record. -/
def ClaimRecord.kept (nowMs horizonMs : ℕ) (r : ClaimRecord) : Bool :=
  !r.claim.released &&
    nowMs < saturatingAdd (saturatingAdd r.claim.expiresAtMs skewSlackMs) horizonMs

/-- What happens to a set of claims. -/
inductive ClaimEvent
  | ingest (env : Envelope)
  | gc (nowMs horizonMs : ℕ)

/-- A set of claims, and the time of the last collection. -/
structure Tenure where
  claims : ClaimSet
  lastGc : ℕ
  deriving DecidableEq

namespace Tenure

def init : Tenure := ⟨ClaimSet.new, 0⟩

/-- Collections happen at times that do not decrease. -/
def step (x : Crypto) (s : Tenure) : ClaimEvent → Option Tenure
  | .ingest env => some ⟨(s.claims.ingest x env).1, s.lastGc⟩
  | .gc nowMs horizonMs =>
      if s.lastGc ≤ nowMs then some ⟨s.claims.gc nowMs horizonMs, nowMs⟩ else none

/-- The envelopes a run delivers. -/
def delivered (evs : List ClaimEvent) : List Envelope :=
  evs.filterMap fun ev => match ev with
    | .ingest env => some env
    | .gc _ _ => none

/-- Once a claim has been ingested, no claim of the same holder on the task that ranks below it,
having an older acquisition or an older renewal, is held live. -/
def StaysSuperseded (x : Crypto) (evs : List ClaimEvent) (s : Tenure) : Prop :=
  ∀ env r, .ingest env ∈ evs → readClaim x env = .ok r →
    ∀ q, s.claims.mine r.claim.task r.claim.holder = some q → q.rank < r.rank →
      ∀ nowMs ≥ s.lastGc, q.live nowMs = false

/-- A collection drops no record while a claim of `S` that ranks below it is live. -/
def Spares (x : Crypto) (S : List Envelope) (s : Tenure) : ClaimEvent → Prop
  | .ingest _ => True
  | .gc nowMs horizonMs => ∀ env ∈ S, ∀ r ∈ (readClaim x env).toOption,
      ∀ q ∈ s.claims.mine r.claim.task r.claim.holder, q.kept nowMs horizonMs = false →
        r.rank < q.rank → r.live nowMs = false

instance (x : Crypto) (S : List Envelope) (s : Tenure) (ev : ClaimEvent) :
    Decidable (s.Spares x S ev) :=
  match ev with
  | .ingest _ => isTrue trivial
  | .gc nowMs horizonMs => inferInstanceAs (Decidable (∀ env ∈ S,
      ∀ r ∈ (readClaim x env).toOption, ∀ q ∈ s.claims.mine r.claim.task r.claim.holder,
        q.kept nowMs horizonMs = false → r.rank < q.rank → r.live nowMs = false))

/-- The rank `k` is remembered for the task and holder, or all that ranks below it is dead. -/
def Settled (x : Crypto) (S : List Envelope) (task : String) (me : PublicId) (k : Hlc ×ₗ Hlc)
    (s : Tenure) : Prop :=
  (∃ q, s.claims.mine task me = some q ∧ k ≤ q.rank) ∨
    ∀ r ∈ claimsOf x S task me, r.rank < k → r.live s.lastGc = false

variable {s t : Tenure} {ev : ClaimEvent} {task : String} {me : PublicId} {k : Hlc ×ₗ Hlc}

variable {env : Envelope} {evs : List ClaimEvent}

section

variable (hsha : x.CollisionFree (S.map digestInput)) (hs : s.claims.Known x S)
  (henv : env ∈ S)

include hsha hs henv

theorem Settled.ingest (h : s.Settled x S task me k) :
    Settled x S task me k ⟨(s.claims.ingest x env).1, s.lastGc⟩ := by
  refine h.imp (fun hheld => ?_) id
  obtain ⟨q, hq, hk⟩ := hheld
  cases hread : readClaim x env with
  | error e =>
    rw [ClaimSet.ingest_of_error hread]
    exact ⟨q, hq, hk⟩
  | ok r =>
    rw [ClaimSet.mine_ingest hsha hs henv hread, hq]
    split_ifs
    · by_cases hlt : q.rank < r.rank
      · exact ⟨r, if_pos hlt, hk.trans hlt.le⟩
      · exact ⟨q, if_neg hlt, hk⟩
    · exact ⟨q, rfl, hk⟩

theorem settled_of_ingest {r : ClaimRecord} (hread : readClaim x env = .ok r) :
    Settled x S r.claim.task r.claim.holder r.rank ⟨(s.claims.ingest x env).1, s.lastGc⟩ := by
  refine .inl ?_
  rw [ClaimSet.mine_ingest hsha hs henv hread, if_pos ⟨rfl, rfl⟩]
  cases s.claims.mine r.claim.task r.claim.holder with
  | none => exact ⟨r, rfl, le_rfl⟩
  | some q =>
    by_cases hlt : q.rank < r.rank
    · exact ⟨r, if_pos hlt, le_rfl⟩
    · exact ⟨q, if_neg hlt, not_lt.1 hlt⟩

end

theorem mine_gc_kept (s : ClaimSet) (nowMs horizonMs : ℕ) (task : String) (me : PublicId) :
    (s.gc nowMs horizonMs).mine task me = (s.mine task me).filter (·.kept nowMs horizonMs) :=
  s.mine_gc nowMs horizonMs task me

theorem Settled.gc {nowMs horizonMs : ℕ} (hspare : s.Spares x S (.gc nowMs horizonMs))
    (hle : s.lastGc ≤ nowMs) (h : s.Settled x S task me k) :
    Settled x S task me k ⟨s.claims.gc nowMs horizonMs, nowMs⟩ := by
  rcases h with ⟨q, hq, hk⟩ | hdead
  · cases hkept : q.kept nowMs horizonMs with
    | true =>
      refine .inl ⟨q, ?_, hk⟩
      rw [mine_gc_kept, hq, filter_some, if_pos hkept]
    | false =>
      refine .inr fun r hr hlt => ?_
      obtain ⟨env, henv, hread, rfl, rfl⟩ := mem_claimsOf.1 hr
      exact hspare env henv r (by rw [hread]; rfl) q hq hkept (hlt.trans_le hk)
  · exact .inr fun r hr hlt => Claim.live_eq_false_of_le (hdead r hr hlt) hle

/-- What every run keeps: the records come from the envelopes, and what was ingested is settled. -/
structure Inv (x : Crypto) (S : List Envelope) (evs : List ClaimEvent) (s : Tenure) : Prop where
  known : s.claims.Known x S
  settled : ∀ env r, .ingest env ∈ evs → readClaim x env = .ok r →
    s.Settled x S r.claim.task r.claim.holder r.rank

theorem Inv.step (hsha : x.CollisionFree (S.map digestInput))
    (h : Inv x S evs s) (hS : ∀ env, ev = .ingest env → env ∈ S) (hspare : s.Spares x S ev)
    (ht : s.step x ev = some t) : Inv x S (evs ++ [ev]) t := by
  cases ev with
  | ingest env =>
    cases ht
    have henv := hS env rfl
    refine ⟨h.known.ingest hsha henv, fun env' r hmem hread => ?_⟩
    rcases mem_append.1 hmem with hmem | hmem
    · exact (h.settled env' r hmem hread).ingest hsha h.known henv
    · cases mem_singleton.1 hmem
      exact settled_of_ingest hsha h.known henv hread
  | gc nowMs horizonMs =>
    dsimp only [Tenure.step] at ht
    split_ifs at ht with hle
    cases ht
    refine ⟨fun task me r hr => ?_, fun env r hmem hread => ?_⟩
    · dsimp only at hr
      rw [mine_gc_kept, filter_eq_some_iff] at hr
      exact h.known task me r hr.1
    · rcases mem_append.1 hmem with hmem | hmem
      · exact (h.settled env r hmem hread).gc hspare hle
      · cases mem_singleton.1 hmem

theorem inv_run (hsha : x.CollisionFree (S.map digestInput))
    (hS : ∀ env, .ingest env ∈ evs → env ∈ S) (hm : Runs.Meets (step x) (Spares x S) init evs)
    (hrun : run (step x) init evs = some s) : Inv x S evs s := by
  induction evs using reverseRecOn generalizing s with
  | nil =>
    cases hrun
    exact ⟨ClaimSet.known_new, by simp⟩
  | append_singleton evs ev ih =>
    obtain ⟨u, hu, hus⟩ := run_append_eq_some.1 hrun
    obtain ⟨v, hv, hvs⟩ := run_cons_eq_some.1 hus
    cases hvs
    have hprev := ih (fun env henv => hS env (mem_append_left _ henv)) hm.left hu
    refine hprev.step hsha (fun env hev => hS env ?_) (hm.right hu).head hv
    rw [hev]
    exact mem_append_right _ (mem_singleton_self _)

theorem mem_delivered (h : .ingest env ∈ evs) : env ∈ delivered evs :=
  mem_filterMap.2 ⟨_, h, rfl⟩

/-- **A hold that has been superseded or released does not come back**, in a run whose collections
drop no record while one of the envelopes below it is live. -/
theorem staysSuperseded_of_spares {evs : List ClaimEvent}
    (hsha : x.CollisionFree ((delivered evs).map digestInput))
    (hm : Runs.Meets (step x) (Spares x (delivered evs)) init evs)
    (hrun : run (step x) init evs = some s) : StaysSuperseded x evs s := by
  have hinv := inv_run hsha (fun env => mem_delivered) hm hrun
  intro env r hmem hread q hq hlt nowMs hnow
  rcases hinv.settled env r hmem hread with ⟨q', hq', hle⟩ | hdead
  · cases hq.symm.trans hq'
    exact absurd hlt hle.not_gt
  · exact Claim.live_eq_false_of_le (hdead q (hinv.known _ _ _ hq) hlt) hnow

/-- A hold, its release, a collection, and the hold once more. -/
def redelivery (gcMs : ℕ) : List ClaimEvent :=
  [.ingest (sampleClaim firstHold), .ingest (sampleClaim (firstHold.renew ⟨2000, 0⟩ true)),
    .gc gcMs 86400000, .ingest (sampleClaim firstHold)]

/-- The hold is held. -/
def held (gcMs : ℕ) : Tenure :=
  ⟨ClaimSet.new.ingestAll sampleCrypto [sampleClaim firstHold], gcMs⟩

/-- The release is collected when the hold has expired. -/
theorem staysSuperseded_redelivery : run (step sampleCrypto) init (redelivery 76000) =
    some (held 76000) ∧ StaysSuperseded sampleCrypto (redelivery 76000) (held 76000) := by
  have hrun : run (step sampleCrypto) init (redelivery 76000) = some (held 76000) := by
    decide +kernel
  exact ⟨hrun, staysSuperseded_of_spares (by decide +kernel) (by decide +kernel) hrun⟩

/-- The release is collected a second after it was made: the hold is back. -/
theorem redelivery_revives : run (step sampleCrypto) init (redelivery 3000) =
    some (held 3000) ∧ ¬ StaysSuperseded sampleCrypto (redelivery 3000) (held 3000) := by
  refine ⟨by decide +kernel, fun h => ?_⟩
  have hread : readClaim sampleCrypto (sampleClaim (firstHold.renew ⟨2000, 0⟩ true)) =
      .ok (sampleClaimRecord (firstHold.renew ⟨2000, 0⟩ true)) := by decide +kernel
  have hdead := h _ _ (by simp [redelivery]) hread (sampleClaimRecord firstHold) (by decide +kernel)
    (by decide +kernel) 3000 le_rfl
  exact absurd hdead (by decide +kernel)

end Tenure

end RandallFlare
