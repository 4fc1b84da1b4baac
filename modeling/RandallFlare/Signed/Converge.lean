import RandallFlare.Lib.Fallible
import RandallFlare.Lib.Runs
import RandallFlare.Signed.ManifestSet

/-!
# Gossip of manifests

Two nodes ingest the same envelopes, over and over, each in its own order.  For one worker name there
are four stages: a version next to the highest is held; the highest version, or the record of the
version below it that nothing of that version replaces; the highest version; its lowest digest.  One
envelope leads from each stage to the next, so four rounds of deliveries are enough.  The step to the
highest version may be missing: if no envelope of it links the lowest digest of the version below, a
node that holds the latter refuses them all.

* `records`: what a set of envelopes says about a name;
* `Stage`: the stages, kept by every offer (`AtStage.offer`);
* `ManifestsConverge`, and `manifestsConverge_iff`, the result;
* `version_le_ingestAll`: no worker is set back.
-/

namespace RandallFlare

open ManifestRecord List Option

variable {x : Crypto} {operator : SignerId} {name : String} {S : List Envelope}

/-- The records of a name among the envelopes. -/
def records (x : Crypto) (operator : SignerId) (S : List Envelope) (name : String) :
    List ManifestRecord :=
  (S.filterMap fun e => (readManifest x operator e).toOption).filter (·.manifest.name = name)

variable {r : ManifestRecord} {env : Envelope} {held : Option ManifestRecord}
  {P : Option ManifestRecord → Prop} {l : List Envelope}

theorem mem_records : r ∈ records x operator S name ↔
      ∃ e ∈ S, readManifest x operator e = .ok r ∧ r.manifest.name = name := by
  simp only [records, mem_filter, mem_filterMap, Fallible.toOption_eq_some, decide_eq_true_eq,
    ← exists_and_right, and_assoc]

/-- No record has a higher version. -/
def Highest (R : List ManifestRecord) (r : ManifestRecord) : Prop :=
  r ∈ R ∧ ∀ q ∈ R, q.manifest.version ≤ r.manifest.version

/-- No record of its version has a lower digest. -/
def Lowest (R : List ManifestRecord) (r : ManifestRecord) : Prop :=
  r ∈ R ∧ ∀ q ∈ R, q.manifest.version = r.manifest.version → r.digest ≤ q.digest

/-- For every worker, some envelope of the highest version links the lowest digest of the version
just below, if there is an envelope of that version. -/
def Linked (x : Crypto) (operator : SignerId) (S : List Envelope) : Prop :=
  ∀ name top below, Highest (records x operator S name) top →
    Lowest (records x operator S name) below →
    below.manifest.version + 1 = top.manifest.version →
    ∃ r ∈ records x operator S name, r.manifest.version = top.manifest.version ∧
      r.manifest.prev = some below.digest

/-! ### One name -/

/-- The record of a name after an envelope. -/
def offerEnvelope (x : Crypto) (operator : SignerId) (name : String)
    (held : Option ManifestRecord) (env : Envelope) : Option ManifestRecord :=
  match readManifest x operator env with
  | .ok r => if name = r.manifest.name then (offer held r).1 else held
  | .error _ => held

theorem ManifestSet.get_ingest_eq (s : ManifestSet) (env : Envelope) (name : String) :
    (s.ingest x env).1.get name = offerEnvelope x s.operator name (s.get name) env := by
  unfold offerEnvelope
  cases h : readManifest x s.operator env with
  | error e => rw [s.ingest_of_error h]
  | ok r => exact s.get_ingest h name

theorem ManifestSet.get_ingestAll (s : ManifestSet) (envs : List Envelope) (name : String) :
    (s.ingestAll x envs).get name = envs.foldl (offerEnvelope x s.operator name) (s.get name) := by
  induction envs generalizing s with
  | nil => rfl
  | cons env envs ih =>
    have := ih (s.ingest x env).1
    rw [operator_ingest, get_ingest_eq] at this
    exact this

theorem offerEnvelope_cases (x : Crypto) (operator : SignerId) (name : String)
    (held : Option ManifestRecord) (he : env ∈ S) : offerEnvelope x operator name held env = held ∨
      ∃ r ∈ records x operator S name,
        offerEnvelope x operator name held env = (offer held r).1 := by
  unfold offerEnvelope
  split
  · rename_i r hr
    split_ifs with hname
    · exact .inr ⟨r, mem_records.2 ⟨env, he, hr, hname.symm⟩, rfl⟩
    · exact .inl rfl
  · exact .inl rfl

theorem offerEnvelope_of_read
    (hr : readManifest x operator env = .ok r) (hname : r.manifest.name = name) :
    offerEnvelope x operator name held env = (offer held r).1 := by
  unfold offerEnvelope
  rw [hr]
  exact if_pos hname.symm

/-- A record replaces the held one if its version is higher, or the same and its digest lower, and
it is not a next version that links another. -/
theorem offer_some (c r : ManifestRecord) : ((offer (some c) r).1 = some r ∧
      (c.manifest.version < r.manifest.version ∨
        r.manifest.version = c.manifest.version ∧ r.digest < c.digest) ∧
      (r.manifest.version = c.manifest.version + 1 → r.manifest.prev = some c.digest)) ∨
    (offer (some c) r).1 = some c ∧ (r.manifest.version ≤ c.manifest.version ∧
        (r.manifest.version = c.manifest.version → c.digest ≤ r.digest) ∨
      r.manifest.version = c.manifest.version + 1 ∧ r.manifest.prev ≠ some c.digest) := by
  rcases offer_cases (some c) r with ⟨hoffer, hacc⟩ | ⟨_, ⟨⟩, hkeep, -, hwhy⟩
  · exact .inl ⟨by rw [hoffer], by simpa [newer, breaksChain] using hacc c rfl⟩
  · exact .inr ⟨hkeep, by simpa [newer, breaksChain] using hwhy⟩

/-! ### The stages -/

/-- Where a name stands, the highest version being `M`. -/
def Stage (R : List ManifestRecord) (M : ℕ) : ℕ → ManifestRecord → Prop
  | 0, r => M ≤ r.manifest.version + 1
  | 1, r => r.manifest.version = M ∨ r.manifest.version + 1 = M ∧ Lowest R r
  | 2, r => r.manifest.version = M
  | _, r => r.manifest.version = M ∧ Lowest R r

/-- The name holds a record of the set, at this stage. -/
def AtStage (R : List ManifestRecord) (M k : ℕ) (held : Option ManifestRecord) : Prop :=
  ∃ r ∈ R, held = some r ∧ Stage R M k r

/-- The name holds nothing, or a record of the set. -/
def Within (R : List ManifestRecord) (held : Option ManifestRecord) : Prop :=
  ∀ r, held = some r → r ∈ R

section Stages

variable {R : List ManifestRecord} {M k : ℕ} {held : Option ManifestRecord} {r : ManifestRecord}

theorem Within.offer (h : Within R held) (hr : r ∈ R) : Within R (offer held r).1 := by
  intro q hq
  cases held with
  | none => exact some.inj hq ▸ hr
  | some c =>
    rcases offer_some c r with ⟨heq, -⟩ | ⟨heq, -⟩
    · exact some.inj (heq.symm.trans hq) ▸ hr
    · exact h q (heq.symm.trans hq)

theorem AtStage.offer (hM : ∀ q ∈ R, q.manifest.version ≤ M) (h : AtStage R M k held)
    (hr : r ∈ R) : AtStage R M k (offer held r).1 := by
  obtain ⟨c, hc, rfl, hstage⟩ := h
  rcases offer_some c r with ⟨heq, hnew, -⟩ | ⟨heq, -⟩
  · refine ⟨r, hr, heq, ?_⟩
    have hle := hM r hr
    have hlt (hlow : Lowest R c) : c.manifest.version < r.manifest.version := by
      rcases hnew with hlt | ⟨heq, hlt⟩
      · exact hlt
      · exact absurd (hlow.2 r hr heq) (BitVec.not_le.2 hlt)
    match k with
    | 0 =>
      have : M ≤ c.manifest.version + 1 := hstage
      show M ≤ r.manifest.version + 1
      omega
    | 1 =>
      left
      rcases hstage with hv | ⟨hv, hlow⟩
      · omega
      · have := hlt hlow
        omega
    | 2 =>
      have : c.manifest.version = M := hstage
      show r.manifest.version = M
      omega
    | k + 3 => exact absurd (hlt hstage.2) (by rw [hstage.1]; omega)
  · exact ⟨c, hc, heq, hstage⟩

theorem atStage_zero {top : ManifestRecord} (htop : top ∈ R) (hv : top.manifest.version = M)
    (h : Within R held) : AtStage R M 0 (offer held top).1 := by
  have hstage : M ≤ top.manifest.version + 1 := by omega
  cases held with
  | none => exact ⟨top, htop, rfl, hstage⟩
  | some c =>
    rcases offer_some c top with ⟨heq, -⟩ | ⟨heq, hwhy⟩
    · exact ⟨top, htop, heq, hstage⟩
    · exact ⟨c, h c rfl, heq, (by omega : M ≤ c.manifest.version + 1)⟩

theorem atStage_one (hM : ∀ q ∈ R, q.manifest.version ≤ M) {below : ManifestRecord}
    (hbelow : Lowest R below) (hv : below.manifest.version + 1 = M) (h : AtStage R M 0 held) :
    AtStage R M 1 (offer held below).1 := by
  obtain ⟨c, hc, rfl, hstage⟩ := h
  have hnext : M ≤ c.manifest.version + 1 := hstage
  have hle := hM c hc
  rcases offer_some c below with ⟨heq, -⟩ | ⟨heq, hwhy⟩
  · exact ⟨below, hbelow.1, heq, .inr ⟨hv, hbelow⟩⟩
  refine ⟨c, hc, heq, ?_⟩
  by_cases hcM : c.manifest.version = M
  · exact .inl hcM
  · -- What is held was not replaced, so its digest is as low.
    obtain ⟨-, hdig⟩ := hwhy.resolve_right (by omega)
    exact .inr ⟨by omega, hc, fun q hq hqv =>
      BitVec.le_trans (hdig (by omega)) (hbelow.2 q hq (by omega))⟩

theorem atStage_two (hM : ∀ q ∈ R, q.manifest.version ≤ M) {below next : ManifestRecord}
    (hbelow : Lowest R below) (hv : below.manifest.version + 1 = M) (hnext : next ∈ R)
    (hnv : next.manifest.version = M) (hlink : next.manifest.prev = some below.digest)
    (h : AtStage R M 1 held) : AtStage R M 2 (offer held next).1 := by
  obtain ⟨c, hc, rfl, hstage⟩ := h
  rcases hstage with hcM | ⟨hcv, hlow⟩
  · have hat : AtStage R M 2 (some c) := ⟨c, hc, rfl, hcM⟩
    exact hat.offer hM hnext
  · have hdig : c.digest = below.digest :=
      BitVec.le_antisymm (hlow.2 below hbelow.1 (by omega)) (hbelow.2 c hc (by omega))
    rcases offer_some c next with ⟨heq, -⟩ | ⟨-, ⟨hle, -⟩ | ⟨-, hprev⟩⟩
    · exact ⟨next, hnext, heq, hnv⟩
    · omega
    · exact absurd (hdig ▸ hlink) hprev

theorem atStage_three {low : ManifestRecord} (hlow : Lowest R low)
    (hv : low.manifest.version = M) (h : AtStage R M 2 held) :
    AtStage R M 3 (offer held low).1 := by
  obtain ⟨c, hc, rfl, hstage⟩ := h
  have hcM : c.manifest.version = M := hstage
  rcases offer_some c low with ⟨heq, -⟩ | ⟨heq, hwhy⟩
  · exact ⟨low, hlow.1, heq, hv, hlow⟩
  · obtain ⟨-, hdig⟩ := hwhy.resolve_right (by omega)
    exact ⟨c, hc, heq, hcM, hc, fun q hq hqv =>
      BitVec.le_trans (hdig (by omega)) (hlow.2 q hq (by omega))⟩

theorem exists_lowest (hr : r ∈ R) :
    ∃ low, Lowest R low ∧ low.manifest.version = r.manifest.version := by
  have hmem : r ∈ R.filter (·.manifest.version = r.manifest.version) := by simp [hr]
  cases hmin : (R.filter (·.manifest.version = r.manifest.version)).argmin
      fun q => q.digest.toNat with
  | none => exact absurd (argmin_eq_none.1 hmin) (ne_nil_of_mem hmem)
  | some low =>
    obtain ⟨hlow, hv⟩ := mem_filter.1 (argmin_mem hmin)
    rw [decide_eq_true_iff] at hv
    refine ⟨low, ⟨hlow, fun q hq hqv => BitVec.le_def.2 ?_⟩, hv⟩
    refine le_of_mem_argmin (f := fun q : ManifestRecord => q.digest.toNat) ?_ hmin
    simp [hq, hqv, hv]

theorem exists_highest (hr : r ∈ R) : ∃ top, Highest R top := by
  cases hmax : R.argmax fun q => q.manifest.version with
  | none => exact absurd (argmax_eq_none.1 hmax) (ne_nil_of_mem hr)
  | some top =>
    exact ⟨top, argmax_mem hmax, fun q hq =>
      le_of_mem_argmax (f := fun q : ManifestRecord => q.manifest.version) hq hmax⟩

end Stages

/-! ### Rounds of deliveries -/

/-- Every round delivers exactly the envelopes of the set, in some order and number. -/
def Delivers (S : List Envelope) (rounds : List (List Envelope)) : Prop :=
  ∀ l ∈ rounds, ∀ e, e ∈ l ↔ e ∈ S

variable (x operator S name) in
/-- Every offer of a record of the set keeps `P`. -/
def OffersKeep (P : Option ManifestRecord → Prop) : Prop :=
  ∀ held, ∀ r ∈ records x operator S name, P held → P (offer held r).1

theorem offerEnvelope_keeps (hP : OffersKeep x operator name S P) (he : env ∈ S) (h : P held) :
    P (offerEnvelope x operator name held env) := by
  rcases offerEnvelope_cases x operator name held he with heq | ⟨r, hr, heq⟩
  · rwa [heq]
  · rw [heq]
    exact hP held r hr h

/-- A round leads from `P` to `Q` if one record of the set does and every offer keeps both. -/
theorem round_leads {Q : Option ManifestRecord → Prop} (hl : ∀ e, e ∈ l ↔ e ∈ S)
    (hP : OffersKeep x operator name S P) (hQ : OffersKeep x operator name S Q)
    (hr : r ∈ records x operator S name) (hlead : ∀ held, P held → Q (offer held r).1)
    (h : P held) : Q (l.foldl (offerEnvelope x operator name) held) := by
  obtain ⟨e, he, hread, hname⟩ := mem_records.1 hr
  refine Runs.foldl_establish ((hl e).2 he) h
    (fun held env henv => offerEnvelope_keeps hP ((hl env).1 henv))
    (fun held env henv => offerEnvelope_keeps hQ ((hl env).1 henv)) fun held hheld => ?_
  rw [offerEnvelope_of_read hread hname]
  exact hlead held hheld

theorem deliveries_keep (hl : ∀ e ∈ l, e ∈ S) (hP : OffersKeep x operator name S P) (h : P held) :
    P (l.foldl (offerEnvelope x operator name) held) :=
  Runs.foldl_invariant h fun _ env henv => offerEnvelope_keeps hP (hl env henv)

section Rounds

variable {top : ManifestRecord} {rounds : List (List Envelope)} {held : Option ManifestRecord}

section

variable (htop : Highest (records x operator S name) top)

include htop

theorem atStage_offer (k : ℕ) :
    OffersKeep x operator name S (AtStage (records x operator S name) top.manifest.version k) :=
  fun _ _ hr h => h.offer htop.2 hr

/-- Two rounds lead from the first stage to the third, if the step to the highest version is
there.  Without a record of the version below, the first stage is the third. -/
theorem atStage_two_rounds (hlinked : Linked x operator S) {l l' : List Envelope}
    (hl : ∀ e, e ∈ l ↔ e ∈ S) (hl' : ∀ e, e ∈ l' ↔ e ∈ S)
    (h : AtStage (records x operator S name) top.manifest.version 0 held) :
    AtStage (records x operator S name) top.manifest.version 2
      (l'.foldl (offerEnvelope x operator name)
        (l.foldl (offerEnvelope x operator name) held)) := by
  by_cases hex : ∃ b ∈ records x operator S name, b.manifest.version + 1 = top.manifest.version
  · obtain ⟨b, hb, hbv⟩ := hex
    obtain ⟨below, hbelow, hv⟩ := exists_lowest hb
    obtain ⟨next, hnext, hnv, hlink⟩ := hlinked name top below htop hbelow (by omega)
    have h₁ := round_leads hl (atStage_offer htop 0) (atStage_offer htop 1) hbelow.1
      (fun held h => atStage_one htop.2 hbelow (by omega) h) h
    exact round_leads hl' (atStage_offer htop 1) (atStage_offer htop 2) hnext
      (fun held h => atStage_two htop.2 hbelow (by omega) hnext hnv hlink h) h₁
  · obtain ⟨c, hc, rfl, hstage⟩ := h
    have hge : top.manifest.version ≤ c.manifest.version + 1 := hstage
    have hle := htop.2 c hc
    have hne : c.manifest.version + 1 ≠ top.manifest.version := fun h => hex ⟨c, hc, h⟩
    have h₂ : AtStage (records x operator S name) top.manifest.version 2 (some c) :=
      ⟨c, hc, rfl, (by omega : c.manifest.version = top.manifest.version)⟩
    exact deliveries_keep (fun e he => (hl' e).1 he) (atStage_offer htop 2)
      (deliveries_keep (fun e he => (hl e).1 he) (atStage_offer htop 2) h₂)

/-- Four rounds lead to the last stage, and all further ones stay there. -/
theorem atStage_rounds (hlinked : Linked x operator S) (hrounds : Delivers S rounds)
    (hlen : 4 ≤ rounds.length) : AtStage (records x operator S name) top.manifest.version 3
      (rounds.flatten.foldl (offerEnvelope x operator name) none) := by
  match rounds, hlen with
  | l₁ :: l₂ :: l₃ :: l₄ :: rest, _ =>
    have hround : ∀ l ∈ l₁ :: l₂ :: l₃ :: l₄ :: rest, ∀ e, e ∈ l ↔ e ∈ S := hrounds
    simp only [flatten_cons, foldl_append]
    have hstart : Within (records x operator S name) none := fun r hr => by cases hr
    have h₀ := round_leads (hround l₁ (by simp)) (fun held r hr h => Within.offer h hr)
      (atStage_offer htop 0) htop.1 (fun held h => atStage_zero htop.1 rfl h) hstart
    have h₂ := atStage_two_rounds htop hlinked (hround l₂ (by simp)) (hround l₃ (by simp)) h₀
    obtain ⟨low, hlow, hlv⟩ := exists_lowest htop.1
    have h₃ := round_leads (hround l₄ (by simp)) (atStage_offer htop 2) (atStage_offer htop 3)
      hlow.1 (fun held h => atStage_three hlow hlv h) h₂
    refine deliveries_keep (fun e he => ?_) (atStage_offer htop 3) h₃
    obtain ⟨l, hl, he⟩ := mem_flatten.1 he
    exact (hround l (by simp [hl]) e).1 he

end

theorem first_stays {P : Option ManifestRecord → Prop} {r : ManifestRecord} {e : Envelope}
    (he : e ∈ S) (hread : readManifest x operator e = .ok r) (hname : r.manifest.name = name)
    (hP : OffersKeep x operator name S P) (h : P (some r)) (n : ℕ) :
    P ((replicate (n + 1) (e :: S)).flatten.foldl (offerEnvelope x operator name) none) := by
  rw [replicate_succ, flatten_cons, cons_append, foldl_cons, offerEnvelope_of_read hread hname]
  refine deliveries_keep (fun d hd => ?_) hP h
  rcases mem_append.1 hd with hd | hd
  · exact hd
  · obtain ⟨l, hl, hd⟩ := mem_flatten.1 hd
    rw [eq_of_mem_replicate hl] at hd
    rcases mem_cons.1 hd with rfl | hd
    · exact he
    · exact hd

theorem delivers_replicate {e : Envelope} (he : e ∈ S) (n : ℕ) :
    Delivers S (replicate n (e :: S)) := by
  intro l hl d
  rw [eq_of_mem_replicate hl, mem_cons]
  exact ⟨fun h => h.elim (fun h => h ▸ he) id, .inr⟩

end Rounds

/-! ### Convergence -/

/-- Two nodes that are delivered the same envelopes often enough, each round in any order, end up
with the same record for every worker and the same digest of the set. -/
def ManifestsConverge (x : Crypto) (operator : SignerId) (S : List Envelope) : Prop :=
  ∃ n, ∀ rounds rounds', Delivers S rounds → Delivers S rounds' →
    n ≤ rounds.length → n ≤ rounds'.length →
    (∀ name, ((ManifestSet.new operator).ingestAll x rounds.flatten).get name =
      ((ManifestSet.new operator).ingestAll x rounds'.flatten).get name) ∧
    ((ManifestSet.new operator).ingestAll x rounds.flatten).digest x =
      ((ManifestSet.new operator).ingestAll x rounds'.flatten).digest x

/-- If nothing of the highest version links the lowest digest below it, a node that holds the latter
stays there, and one that starts with the highest version does not go back. -/
theorem linked_of_converge (h : ManifestsConverge x operator S) : Linked x operator S := by
  obtain ⟨n, hn⟩ := h
  intro name top below htop hbelow hv
  by_contra hno
  push Not at hno
  obtain ⟨b, hb, hbread, hbname⟩ := mem_records.1 hbelow.1
  obtain ⟨t, ht, htread, htname⟩ := mem_records.1 htop.1
  have hstuck : ∀ held, ∀ r ∈ records x operator S name, held = some below →
      (offer held r).1 = some below := by
    rintro held r hr rfl
    rcases offer_some below r with ⟨-, hnew, hlink⟩ | ⟨heq, -⟩
    · exfalso
      have hle := htop.2 r hr
      rcases hnew with hlt | ⟨hsame, hlt⟩
      · exact hno r hr (by omega) (hlink (by omega))
      · exact absurd (hbelow.2 r hr hsame) (BitVec.not_le.2 hlt)
    · exact heq
  have hlow := first_stays hb hbread hbname hstuck rfl n
  have hhigh := first_stays ht htread htname (atStage_offer htop 2) ⟨top, htop.1, rfl, rfl⟩ n
  have hsame := (hn _ _ (delivers_replicate hb (n + 1)) (delivers_replicate ht (n + 1))
    (by simp) (by simp)).1 name
  rw [ManifestSet.get_ingestAll, ManifestSet.get_ingestAll] at hsame
  obtain ⟨c, -, hc, hcv⟩ := hhigh
  have heq : some below = some c := hlow.symm.trans (hsame.trans hc)
  have hver : c.manifest.version = top.manifest.version := hcv
  rw [← some.inj heq] at hver
  omega

theorem atStage_three_unique (hsha : x.CollisionFree (S.map Envelope.digestInput)) {M : ℕ}
    {held' : Option ManifestRecord} (h : AtStage (records x operator S name) M 3 held)
    (h' : AtStage (records x operator S name) M 3 held') : held = held' := by
  obtain ⟨r, hr, rfl, hv, hlow⟩ := h
  obtain ⟨q, hq, rfl, hv', hlow'⟩ := h'
  obtain ⟨e, he, hread, -⟩ := mem_records.1 hr
  obtain ⟨f, hf, hread', -⟩ := mem_records.1 hq
  obtain ⟨hopen, -, hdig, -⟩ := readManifest_eq_ok hread
  obtain ⟨hopen', -, hdig', -⟩ := readManifest_eq_ok hread'
  have hsame : r.digest = q.digest :=
    BitVec.le_antisymm (hlow.2 q hq (by omega)) (hlow'.2 r hr (by omega))
  obtain rfl := eq_of_digest_eq hsha he hf hopen hopen' (hdig.symm.trans (hsame.trans hdig'))
  rw [Except.ok.inj (hread.symm.trans hread')]

/-- **Manifest gossip converges exactly if the highest version can be reached**: the hash being free
of collisions on the envelopes, two nodes agree on every worker once the envelopes have been
delivered often enough, in whatever orders, if and only if for every worker some envelope of the
highest version links the lowest digest of the version below. -/
theorem manifestsConverge_iff (x : Crypto) (operator : SignerId) (S : List Envelope)
    (hsha : x.CollisionFree (S.map Envelope.digestInput)) :
    ManifestsConverge x operator S ↔ Linked x operator S := by
  refine ⟨linked_of_converge, fun hlinked => ⟨4, fun rounds rounds' hd hd' hlen hlen' => ?_⟩⟩
  have hget : ∀ name, ((ManifestSet.new operator).ingestAll x rounds.flatten).get name =
      ((ManifestSet.new operator).ingestAll x rounds'.flatten).get name := by
    intro name
    rw [ManifestSet.get_ingestAll, ManifestSet.get_ingestAll]
    cases hrec : records x operator S name with
    | nil =>
      -- No envelope is about this name.
      have hnone : ∀ rounds, Delivers S rounds →
          rounds.flatten.foldl (offerEnvelope x operator name) none = none := by
        intro rounds hd
        refine deliveries_keep (P := fun held => held = none) (S := S) (fun e he => ?_)
          (fun held r hr => ?_) rfl
        · obtain ⟨l, hl, he⟩ := mem_flatten.1 he
          exact (hd l hl e).1 he
        · rw [hrec] at hr
          cases hr
      exact (hnone rounds hd).trans (hnone rounds' hd').symm
    | cons r l =>
      obtain ⟨top, htop⟩ := exists_highest (R := records x operator S name) (hrec ▸ mem_cons_self)
      exact atStage_three_unique hsha (atStage_rounds htop hlinked hd hlen)
        (atStage_rounds htop hlinked hd' hlen')
  refine ⟨hget, ?_⟩
  unfold ManifestSet.digest
  rw [SortedMap.ext_get hget]

/-! ### Forks -/

/-- Two first versions; `linkedFork` and `brokenFork` add a second one. -/
def forkedRoots : List Envelope := [sampleDeploy 1 none "a", sampleDeploy 1 none "b"]

/-- The second version links the first version that stays. -/
def linkedFork : List Envelope :=
  sampleSuccessor 2 (sampleDeploy 1 none "a") "c" :: forkedRoots

/-- The second version links the first version that is replaced. -/
def brokenFork : List Envelope :=
  sampleSuccessor 2 (sampleDeploy 1 none "b") "c" :: forkedRoots

/-- What such envelopes say. -/
abbrev forkRecords (S : List Envelope) : List ManifestRecord :=
  records sampleCrypto sampleOperator S "w"

theorem manifestsConverge_linkedFork :
    ManifestsConverge sampleCrypto sampleOperator linkedFork := by
  refine (manifestsConverge_iff _ _ _ (by decide +kernel)).2 fun name top below htop hbelow hv => ?_
  obtain rfl : name = "w" := by
    obtain ⟨e, he, hread, rfl⟩ := mem_records.1 htop.1
    have hall : ∀ e ∈ linkedFork, ((readManifest sampleCrypto sampleOperator e).toOption.map
        fun r => r.manifest.name) = some "w" := by decide +kernel
    have := hall e he
    rw [hread] at this
    exact some.inj this
  -- The two first versions and the second one.
  have hlinks : ∀ t ∈ forkRecords linkedFork, ∀ b ∈ forkRecords linkedFork,
      b.manifest.version + 1 = t.manifest.version → (∀ q ∈ forkRecords linkedFork,
        q.manifest.version = b.manifest.version → b.digest ≤ q.digest) →
      ∃ r ∈ forkRecords linkedFork,
        r.manifest.version = t.manifest.version ∧ r.manifest.prev = some b.digest := by
    decide +kernel
  exact hlinks top htop.1 below hbelow.1 hv hbelow.2

/-- A node that starts with the first version that stays never gets to the second. -/
theorem brokenFork_diverges : ¬ ManifestsConverge sampleCrypto sampleOperator brokenFork := by
  intro h
  have hno : ∃ t ∈ forkRecords brokenFork, ∃ b ∈ forkRecords brokenFork,
      (∀ q ∈ forkRecords brokenFork, q.manifest.version ≤ t.manifest.version) ∧
      (∀ q ∈ forkRecords brokenFork,
        q.manifest.version = b.manifest.version → b.digest ≤ q.digest) ∧
      b.manifest.version + 1 = t.manifest.version ∧ ∀ r ∈ forkRecords brokenFork,
        ¬ (r.manifest.version = t.manifest.version ∧ r.manifest.prev = some b.digest) := by
    decide +kernel
  obtain ⟨t, ht, b, hb, htop, hlow, hv, hnone⟩ := hno
  obtain ⟨r, hr, hlink⟩ := linked_of_converge h "w" t b ⟨ht, htop⟩ ⟨hb, hlow⟩ hv
  exact hnone r hr hlink

/-- The version a node has of a worker, zero if it knows none. -/
def ManifestSet.version (s : ManifestSet) (name : String) : ℕ :=
  ((s.get name).map (·.manifest.version)).getD 0

/-- **No worker is ever set back to an earlier version**, whatever comes in. -/
theorem ManifestSet.version_le_ingestAll (x : Crypto) (s : ManifestSet) (envs : List Envelope)
    (name : String) : s.version name ≤ (s.ingestAll x envs).version name := by
  refine Runs.foldl_invariant (P := fun t : ManifestSet => s.version name ≤ t.version name) le_rfl
    fun t env _ ht => ht.trans ?_
  rcases ingest_cases x t env with ⟨r, -, heq, hnew⟩ | ⟨heq, -⟩
  · rw [heq]
    by_cases hname : name = r.manifest.name
    · subst hname
      cases hheld : t.get r.manifest.name with
      | none => simp [version, hheld]
      | some held =>
        have hnewer := (hnew held hheld).1
        simp only [ManifestRecord.newer, Bool.or_eq_true, Bool.and_eq_true, decide_eq_true_eq,
          beq_iff_eq] at hnewer
        simp only [get] at hheld
        simp only [version, get, hheld, SortedMap.get_insert_self, map_some,
          getD_some]
        omega
    · simp [version, get, SortedMap.get_insert, hname]
  · rw [heq]

end RandallFlare
