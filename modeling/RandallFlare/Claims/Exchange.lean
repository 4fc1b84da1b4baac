import RandallFlare.Claims.Order
import RandallFlare.Lib.Exchange

/-!
# Anti-entropy of claims

Two nodes send each other `live_envelopes`.  A release is a claim that is not live, so it stays where
it is; the other node goes on believing in the hold, and it does so if the release comes back to a
node that has seen it.

* `HoldersAgree`: every task has the same holder on both nodes after the exchange;
* `holdersAgree_iff` is the result.
-/

namespace RandallFlare

open ClaimSet ClaimRecord Envelope List

variable {x : Crypto} {S : List Envelope} {A B : ClaimSet} {nowMs : ℕ}

theorem ClaimSet.Known.mem_of_live (hB : B.Known x S) {env : Envelope}
    (henv : env ∈ B.liveEnvelopes nowMs) : env ∈ S := by
  obtain ⟨task, me, r, hr, -, rfl⟩ := (mem_liveEnvelopes B).1 henv
  obtain ⟨f, hf, hfread, -⟩ := mem_claimsOf.1 (hB _ _ _ hr)
  obtain ⟨-, -, -, -, rfl⟩ := readClaim_eq_ok hfread
  exact hf

variable {l : List Envelope} {task : String} {me : PublicId}

theorem mem_claimsOf_live (hB : B.Known x S) (hl : ∀ e, e ∈ l ↔ e ∈ B.liveEnvelopes nowMs)
    {r : ClaimRecord} :
    r ∈ claimsOf x l task me ↔ B.mine task me = some r ∧ r.live nowMs := by
  constructor
  · intro hr
    obtain ⟨e, he, hread, rfl, rfl⟩ := mem_claimsOf.1 hr
    obtain ⟨task, me, q, hq, hlive, rfl⟩ := (mem_liveEnvelopes B).1 ((hl e).1 he)
    obtain ⟨f, -, hfread, rfl, rfl⟩ := mem_claimsOf.1 (hB _ _ _ hq)
    obtain ⟨-, -, -, -, rfl⟩ := readClaim_eq_ok hfread
    cases hread.symm.trans hfread
    exact ⟨hq, hlive⟩
  · rintro ⟨hr, hlive⟩
    obtain ⟨f, -, hfread, hkey⟩ := mem_claimsOf.1 (hB _ _ _ hr)
    obtain ⟨-, -, -, -, rfl⟩ := readClaim_eq_ok hfread
    exact mem_claimsOf.2 ⟨r.envelope, (hl _).2 ((mem_liveEnvelopes B).2 ⟨task, me, r, hr, hlive, rfl⟩),
      hfread, hkey⟩

/-- Ingesting the other's live envelopes, in any order and any number of times, is an exchange of
registers. -/
theorem mine_exchange (hsha : x.CollisionFree (S.map digestInput)) (hA : A.Known x S)
    (hB : B.Known x S) (hl : ∀ e, e ∈ l ↔ e ∈ B.liveEnvelopes nowMs)
    (task : String) (me : PublicId) : (A.ingestAll x l).mine task me =
      Exchange.after (fun r : ClaimRecord => r.live nowMs) rank (A.mine task)
        (B.mine task) me := by
  rw [mine_ingestAll hsha hA fun e he => hB.mem_of_live ((hl e).1 he)]
  unfold Exchange.after
  cases hheld : B.mine task me with
  | none =>
    have hnil : claimsOf x l task me = [] := eq_nil_iff_forall_not_mem.2 fun r hr => by
      have hr' := ((mem_claimsOf_live hB hl).1 hr).1
      rw [hheld] at hr'
      cases hr'
    rw [hnil]
    rfl
  | some r =>
    dsimp only
    split_ifs with hlive
    · refine Latest.foldl_keep_const (fun q hq => ?_) ?_ _
      · have hq' := ((mem_claimsOf_live hB hl).1 hq).1
        exact Option.some.inj (hq'.symm.trans hheld)
      · exact ne_nil_of_mem ((mem_claimsOf_live hB hl).2 ⟨hheld, hlive⟩)
    · have hnil : claimsOf x l task me = [] := eq_nil_iff_forall_not_mem.2 fun q hq => by
        obtain ⟨hq', hqlive⟩ := (mem_claimsOf_live hB hl).1 hq
        cases hq'.symm.trans hheld
        exact hlive hqlive
      rw [hnil]
      rfl

theorem holder_eq_some (hsha : x.CollisionFree (S.map digestInput)) (hA : A.Known x S) :
    (A.winner task nowMs).map (·.claim.holder) = some me ↔
      Exchange.Wins (fun r : ClaimRecord => r.live nowMs) precedence (A.mine task) me := by
  rw [Option.map_eq_some_iff]
  constructor
  · rintro ⟨r, hr, rfl⟩
    obtain ⟨⟨me, hmine⟩, hlive, hleast⟩ := (winner_eq_some hsha hA).1 hr
    obtain ⟨-, -, -, -, rfl⟩ := mem_claimsOf.1 (hA _ _ _ hmine)
    exact ⟨r, hmine, hlive, hleast⟩
  · rintro ⟨r, hmine, hlive, hleast⟩
    obtain ⟨-, -, -, -, rfl⟩ := mem_claimsOf.1 (hA _ _ _ hmine)
    exact ⟨r, (winner_eq_some hsha hA).2 ⟨⟨_, hmine⟩, hlive, hleast⟩, rfl⟩

theorem finite_mine (hA : A.Known x S) (hB : B.Known x S) (task : String) :
    {p : PublicId × ClaimRecord |
      A.mine task p.1 = some p.2 ∨ B.mine task p.1 = some p.2}.Finite := by
  refine (((A.perTask task ++ B.perTask task).finite_toSet).image
    fun r => (r.claim.holder, r)).subset ?_
  rintro ⟨me, r⟩ hp
  refine ⟨r, mem_append.2 (hp.imp (fun h => (A.mem_perTask task).2 ⟨me, h⟩)
    fun h => (B.mem_perTask task).2 ⟨me, h⟩), ?_⟩
  have hmem : r ∈ claimsOf x S task me := hp.elim (hA _ _ _) (hB _ _ _)
  obtain ⟨-, -, -, -, rfl⟩ := mem_claimsOf.1 hmem
  rfl

/-- Once each node has ingested the live envelopes of the other, in any order and any number of
times, every task has the same holder on both. -/
def HoldersAgree (x : Crypto) (A B : ClaimSet) (nowMs : ℕ) : Prop :=
  ∀ l l' : List Envelope, (∀ e, e ∈ l ↔ e ∈ B.liveEnvelopes nowMs) →
    (∀ e, e ∈ l' ↔ e ∈ A.liveEnvelopes nowMs) →
    ∀ task, ((A.ingestAll x l).winner task nowMs).map (·.claim.holder) =
      ((B.ingestAll x l').winner task nowMs).map (·.claim.holder)

/-- Of the live records of a task on either node that no live record of the same holder on the other
outranks, the first one gets to both nodes. -/
def ExchangeSettles (A B : ClaimSet) (nowMs : ℕ) : Prop :=
  ∀ task, Exchange.Settles (fun r : ClaimRecord => r.live nowMs) rank
    precedence (A.mine task) (B.mine task)

/-- **Anti-entropy leaves every task with the same holder on both nodes exactly if, for every task,
the first record that contends on either node gets to both.** -/
theorem holdersAgree_iff (x : Crypto) (S T : List Envelope) (nowMs : ℕ)
    (hsha : x.CollisionFree ((S ++ T).map digestInput)) :
    HoldersAgree x (new.ingestAll x S) (new.ingestAll x T) nowMs ↔
      ExchangeSettles (new.ingestAll x S) (new.ingestAll x T) nowMs := by
  have hA : (new.ingestAll x S).Known x (S ++ T) :=
    known_new.ingestAll hsha fun e he => mem_append_left T he
  have hB : (new.ingestAll x T).Known x (S ++ T) :=
    known_new.ingestAll hsha fun e he => mem_append_right S he
  generalize new.ingestAll x S = A at hA ⊢
  generalize new.ingestAll x T = B at hB ⊢
  have hinj : ∀ task (me me' : PublicId) (r q : ClaimRecord),
      (A.mine task me = some r ∨ B.mine task me = some r) →
      (A.mine task me' = some q ∨ B.mine task me' = some q) →
      r.precedence = q.precedence → me = me' := by
    intro task me me' r q hr hq hprec
    obtain ⟨e, he, hread, -, rfl⟩ := mem_claimsOf.1 (hr.elim (hA _ _ _) (hB _ _ _))
    obtain ⟨f, hf, hfread, -, rfl⟩ := mem_claimsOf.1 (hq.elim (hA _ _ _) (hB _ _ _))
    have hdigest := BitVec.toNat_inj.1 (Prod.mk.inj (toLex.injective hprec)).2
    rw [readClaim_injOn_digest hsha he hf hread hfread hdigest]
  -- Whatever the order of the envelopes, the registers after the exchange are the same.
  have htask : ∀ l l' : List Envelope, (∀ e, e ∈ l ↔ e ∈ B.liveEnvelopes nowMs) →
      (∀ e, e ∈ l' ↔ e ∈ A.liveEnvelopes nowMs) → ∀ task,
      (((A.ingestAll x l).winner task nowMs).map (·.claim.holder) =
          ((B.ingestAll x l').winner task nowMs).map (·.claim.holder) ↔
        Exchange.Settles (fun r : ClaimRecord => r.live nowMs) rank
          precedence (A.mine task) (B.mine task)) := by
    intro l l' hl hl' task
    have hA' := hA.ingestAll hsha fun e he => hB.mem_of_live ((hl e).1 he)
    have hB' := hB.ingestAll hsha fun e he => hA.mem_of_live ((hl' e).1 he)
    rw [← Exchange.agree_iff (finite_mine hA hB task) (hinj task), Option.ext_iff]
    simp only [holder_eq_some hsha hA', holder_eq_some hsha hB',
      funext (mine_exchange hsha hA hB hl task), funext (mine_exchange hsha hB hA hl' task)]
  constructor
  · intro h task
    exact (htask _ _ (fun _ => Iff.rfl) (fun _ => Iff.rfl) task).1
      (h _ _ (fun _ => Iff.rfl) (fun _ => Iff.rfl) task)
  · intro h l l' hl hl' task
    exact (htask l l' hl hl' task).2 (h task)

/-- A second holder of the same task. -/
def secondHold : Claim := .make (sampleHolder 2) "t" ⟨1500, 0⟩ 60000

/-- Two holds of the task, one on each node. -/
theorem holdersAgree_twoHolds :
    HoldersAgree sampleCrypto (new.ingestAll sampleCrypto [sampleClaim firstHold])
      (new.ingestAll sampleCrypto [sampleClaim secondHold]) 4000 := by
  have hsha : sampleCrypto.CollisionFree
      (([sampleClaim firstHold] ++ [sampleClaim secondHold]).map digestInput) := by
    decide +kernel
  refine (holdersAgree_iff _ _ _ _ hsha).2 fun task me r hfirst => ?_
  -- Every holder has one record, so that a register has the record or is empty.
  have hone : ∀ q : ClaimRecord, ∀ l ∈ [[sampleClaim firstHold], [sampleClaim secondHold]],
      (new.ingestAll sampleCrypto l).mine task me = some q →
        q ∈ claimsOf sampleCrypto ([sampleClaim firstHold] ++ [sampleClaim secondHold]) task me := by
    intro q l hl hq
    refine known_new.ingestAll hsha (fun e he => ?_) task me q hq
    rcases mem_pair.1 hl with rfl | rfl
    · exact mem_append_left _ he
    · exact mem_append_right _ he
  have hsame : ∀ q ∈ claimsOf sampleCrypto ([sampleClaim firstHold] ++ [sampleClaim secondHold])
      task me, q = r := by
    have hr : r ∈ claimsOf sampleCrypto ([sampleClaim firstHold] ++ [sampleClaim secondHold])
        task me := hfirst.1.elim (fun h => hone r _ (by simp) h.1) fun h => hone r _ (by simp) h.1
    intro q hq
    obtain ⟨e, he, hread, -, hme⟩ := mem_claimsOf.1 hr
    obtain ⟨f, hf, hfread, -, hme'⟩ := mem_claimsOf.1 hq
    have hholders : ∀ e ∈ [sampleClaim firstHold] ++ [sampleClaim secondHold],
        ∀ f ∈ [sampleClaim firstHold] ++ [sampleClaim secondHold],
        ∀ r ∈ (readClaim sampleCrypto e).toOption, ∀ q ∈ (readClaim sampleCrypto f).toOption,
        r.claim.holder = q.claim.holder → q = r := by
      decide +kernel
    exact hholders e he f hf r (by rw [hread]; rfl) q (by rw [hfread]; rfl) (hme.trans hme'.symm)
  exact ⟨.inl fun q hq => .inl (hsame q (hone q _ (by simp) hq)),
    .inl fun q hq => .inl (hsame q (hone q _ (by simp) hq))⟩

/-- One node has seen the release; the other never hears of it. -/
theorem unsentRelease_disagrees :
    ¬ HoldersAgree sampleCrypto (new.ingestAll sampleCrypto [sampleClaim firstHold])
      (new.ingestAll sampleCrypto
        [sampleClaim firstHold, sampleClaim (firstHold.renew ⟨3000, 0⟩ true)]) 4000 := by
  intro h
  have hsame := h _ _ (fun _ => Iff.rfl) (fun _ => Iff.rfl) "t"
  exact absurd hsame (by decide +kernel)

end RandallFlare
