import RandallFlare.Claims.ClaimSet

/-!
# The order of claims

Nodes ingest the same claims, each in its own order.  For a task and a holder the claims are offered
to a register that keeps the highest rank, acquisition and then renewal; of two different claims of
the same rank it keeps the one it saw first.

* `OrderIndependent`: the records, and so the holders, do not depend on the order;
* `TopsUnique`: different claims of the same rank are superseded;
* `orderIndependent_iff`: one is the other.
-/

namespace RandallFlare

open ClaimSet List

variable {x : Crypto} {S : List Envelope}

/-- Two nodes that ingest the same envelopes, each in its own order, hold the same record for every
task and holder, and the same record holds every task at every time. -/
def OrderIndependent (x : Crypto) (S : List Envelope) : Prop :=
  ∀ l l' : List Envelope, l.Perm S → l'.Perm S →
    (∀ task me, (new.ingestAll x l).mine task me = (new.ingestAll x l').mine task me) ∧
    ∀ task nowMs, (new.ingestAll x l).winner task nowMs = (new.ingestAll x l').winner task nowMs

/-- Different claims of a holder on a task with the same acquisition and renewal are superseded. -/
def TopsUnique (x : Crypto) (S : List Envelope) : Prop :=
  ∀ task me, ∀ r ∈ claimsOf x S task me, ∀ q ∈ claimsOf x S task me, r ≠ q → r.rank = q.rank →
    ∃ p ∈ claimsOf x S task me, r.rank < p.rank

theorem isTop_mine (hsha : x.CollisionFree (S.map Envelope.digestInput)) {l : List Envelope}
    (hl : l.Perm S) (task : String) (me : PublicId) :
    Latest.IsTop ClaimRecord.rank {r | r ∈ claimsOf x S task me}
      ((new.ingestAll x l).mine task me) := by
  have hset : {r | r ∈ claimsOf x l task me} = {r | r ∈ claimsOf x S task me} := by
    ext r
    simp only [Set.mem_ofPred_eq, mem_claimsOf, hl.mem_iff]
  rw [mine_ingestAll hsha known_new (fun e he => hl.mem_iff.1 he), ← hset]
  exact Latest.isTop_foldl _

theorem mine_of_first (hsha : x.CollisionFree (S.map Envelope.digestInput)) {e : Envelope}
    {r : ClaimRecord} (he : e ∈ S) (hread : readClaim x e = .ok r)
    (htop : ∀ q ∈ claimsOf x S r.claim.task r.claim.holder, q.rank ≤ r.rank) :
    (new.ingestAll x (e :: S.erase e)).mine r.claim.task r.claim.holder = some r := by
  have hperm : (e :: S.erase e).Perm S := (perm_cons_erase he).symm
  have hclaims : claimsOf x (e :: S.erase e) r.claim.task r.claim.holder =
      r :: claimsOf x (S.erase e) r.claim.task r.claim.holder := by
    simp [claimsOf, hread, Except.toOption]
  rw [mine_ingestAll hsha known_new (fun f hf => hperm.mem_iff.1 hf), hclaims]
  refine Latest.foldl_keep_of_le fun q hq => htop q ?_
  obtain ⟨f, hf, hq⟩ := mem_claimsOf.1 hq
  exact mem_claimsOf.2 ⟨f, mem_of_mem_erase hf, hq⟩

/-- **The order of claims does not matter exactly if different claims of a holder on a task with the
same acquisition and renewal are superseded.** -/
theorem orderIndependent_iff (x : Crypto) (S : List Envelope)
    (hsha : x.CollisionFree (S.map Envelope.digestInput)) :
    OrderIndependent x S ↔ TopsUnique x S := by
  constructor
  · intro h task me r hr q hq hne hrank
    by_contra hnone
    push Not at hnone
    obtain ⟨e, he, hread, rfl, rfl⟩ := mem_claimsOf.1 hr
    obtain ⟨f, hf, hfread, htask, hme⟩ := mem_claimsOf.1 hq
    -- Each of the two comes first once.
    have hfirst := mine_of_first hsha he hread hnone
    have hfirst' := mine_of_first hsha hf hfread
      (by rw [htask, hme, ← hrank]; exact hnone)
    rw [htask, hme] at hfirst'
    have hsame := (h _ _ (perm_cons_erase he).symm (perm_cons_erase hf).symm).1
      r.claim.task r.claim.holder
    rw [hfirst, hfirst'] at hsame
    exact hne (Option.some.inj hsame)
  · intro h l l' hl hl'
    have hmine : ∀ task me,
        (new.ingestAll x l).mine task me = (new.ingestAll x l').mine task me := by
      intro task me
      refine Latest.IsTop.eq (fun r hr q hq hrtop hqtop => ?_) (isTop_mine hsha hl task me)
        (isTop_mine hsha hl' task me)
      by_contra hne
      obtain ⟨p, hp, hlt⟩ := h task me r hr q hq hne (le_antisymm (hqtop r hr) (hrtop q hq))
      exact absurd (hrtop p hp) (not_le.2 hlt)
    refine ⟨hmine, fun task nowMs => Option.ext fun r => ?_⟩
    rw [winner_eq_some hsha (known_new.ingestAll hsha fun e he => hl.mem_iff.1 he),
      winner_eq_some hsha (known_new.ingestAll hsha fun e he => hl'.mem_iff.1 he)]
    simp only [hmine]

/-! ### Sample claims -/

def sampleHolder (n : ℕ) : PublicId := ⟨BitVec.ofNat 256 n⟩

/-- A claim signed by its holder. -/
def sampleClaim (c : Claim) : Envelope := .sample (.ed c.holder) c.encode

/-- A minute from second 1 on. -/
def firstHold : Claim := .make (sampleHolder 1) "t" ⟨1000, 0⟩ 60000

/-- Two holds of a task; the first is renewed and then released. -/
def releasedHolds : List Envelope :=
  [sampleClaim firstHold, sampleClaim (firstHold.renew ⟨2000, 0⟩ false),
    sampleClaim (firstHold.renew ⟨3000, 0⟩ true),
    sampleClaim (.make (sampleHolder 2) "t" ⟨1500, 0⟩ 60000)]

theorem orderIndependent_releasedHolds : OrderIndependent sampleCrypto releasedHolds := by
  refine (orderIndependent_iff _ _ (by decide +kernel)).2 fun task me r hr q hq hne hrank => ?_
  obtain ⟨e, he, hread, -⟩ := mem_claimsOf.1 hr
  obtain ⟨f, hf, hfread, -⟩ := mem_claimsOf.1 hq
  have hranks : ∀ e ∈ releasedHolds, ∀ f ∈ releasedHolds, ∀ r ∈ (readClaim sampleCrypto e).toOption,
      ∀ q ∈ (readClaim sampleCrypto f).toOption, r.rank = q.rank → r = q := by
    decide +kernel
  exact absurd (hranks e he f hf r (by rw [hread]; rfl) q (by rw [hfread]; rfl) hrank) hne

/-- A release made at the time of the acquisition: whichever comes first stays. -/
theorem instantRelease_depends : ¬ OrderIndependent sampleCrypto
      [sampleClaim firstHold, sampleClaim (firstHold.renew ⟨1000, 0⟩ true)] := by
  intro h
  have hsame := (h _ _ (Perm.refl _) (Perm.swap _ _ _)).1 "t" (sampleHolder 1)
  exact absurd hsame (by decide +kernel)

end RandallFlare
