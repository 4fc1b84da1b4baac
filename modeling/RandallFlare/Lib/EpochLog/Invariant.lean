import RandallFlare.Lib.EpochLog.Basic

/-!
# Every step keeps the invariant

For each step of `EpochLog.Step`: the memory grows (`le_*`) and the invariant is kept (`inv_*`).
`Moves` is a row of steps of one node, `Frame` what they leave to the others.
-/

namespace EpochLog

open Function List

variable {N A : Type*} {ep : A → ℕ} {Quorum : Finset N → Prop}

theorem inv_init : Inv ep Quorum (init : State N A) where
  lead_nil _ _ := rfl
  start_prefix _ := prefix_refl _
  start_lt _ a ha := by cases ha
  lead_le _ a ha := by cases ha
  lead_sound _ P a h := by simp [init] at h
  log_sound _ P a h := by simp [init] at h
  log_le _ a ha := by cases ha
  stood_le _ _ _ h := by cases h
  stood_unique _ _ _ _ h := by cases h
  vote_le _ _ _ _ h := by cases h
  vote_unique _ _ _ _ _ _ h := by cases h
  vote_upToDate _ _ _ _ h := by cases h
  vote_sound _ _ _ _ h := by cases h
  vote_kept _ _ _ _ _ _ h := by cases h
  ack_le _ _ _ h := by cases h
  ack_kept _ _ _ h := by cases h
  elected_le _ _ h := by cases h
  elected_quorum _ _ h := by cases h

variable {v : N} {e : ℕ} {s : State N A} {c : N} {L : List A} {a : A} {t : State N A}

theorem le_bump [DecidableEq N] (s : State N A) (h : s.epoch v ≤ e) : Le s (s.bump v e) := by
  refine { Le.refl s with epoch := fun w => ?_ }
  by_cases hw : w = v
  · subst hw; simpa [State.bump] using h
  · simp [State.bump, update_of_ne hw]

theorem le_stand (s : State N A) (c : N) : Le s (s.stand c) :=
  { Le.refl s with stood := Set.subset_insert _ _ }

theorem le_vote (s : State N A) (v c : N) : Le s (s.vote v c) :=
  { Le.refl s with votes := Set.subset_insert _ _ }

theorem le_extend [DecidableEq N] (hlog : s.log c = s.lead (s.epoch c)) : Le s (s.extend c a) := by
  refine { Le.refl s with lead := fun e => ?_ }
  by_cases hec : e = s.epoch c
  · subst hec
    simp only [State.extend, update_self, hlog]
    exact prefix_append _ _
  · simp [State.extend, update_of_ne hec]

theorem le_adopt [DecidableEq N] (s : State N A) (v : N) (L : List A) : Le s (s.adopt v L) :=
  { Le.refl s with }

theorem le_ack (s : State N A) (v : N) (m : ℕ) : Le s (s.ack v m) :=
  { Le.refl s with acks := Set.subset_insert _ _ }

section

variable (h : Inv ep Quorum s)

include h

theorem inv_bump [DecidableEq N] (he : s.epoch v ≤ e) : Inv ep Quorum (s.bump v e) :=
  have hle := le_bump s he
  { h with
    log_le := fun w a ha => (h.log_le w a ha).trans (hle.epoch w)
    stood_le := fun w d L hw => (h.stood_le w d L hw).trans (hle.epoch w)
    vote_le := fun w d c L hv => (h.vote_le w d c L hv).trans (hle.epoch w)
    ack_le := fun w d m ha => ⟨(h.ack_le w d m ha).1.trans (hle.epoch w), (h.ack_le w d m ha).2⟩
    ack_kept := fun w d m ha => (h.ack_kept w d m ha).mono hle (h.ack_le w d m ha).2.2
      (fun _ hd => hd.trans (hle.epoch w)) (prefix_refl _)
    elected_le := fun d c hc => (h.elected_le d c hc).trans (hle.epoch c) }

theorem inv_stand
    (hc : ∀ L, (c, s.epoch c, L) ∈ s.stood → L = s.log c) : Inv ep Quorum (s.stand c) :=
  { h with
    stood_le := by
      rintro w e L (heq | hmem)
      · cases heq; exact le_rfl
      · exact h.stood_le w e L hmem
    stood_unique := by
      rintro w e L K (heq | hmem) (heq' | hmem')
      · cases heq; cases heq'; rfl
      · cases heq; exact (hc K hmem').symm
      · cases heq'; exact hc L hmem
      · exact h.stood_unique w e L K hmem hmem'
    vote_upToDate := fun v e d L hv => by
      obtain ⟨K, hK, hup⟩ := h.vote_upToDate v e d L hv
      exact ⟨K, Set.mem_insert_of_mem _ hK, hup⟩ }

theorem inv_vote (hv : ∀ d L, (v, s.epoch v, d, L) ∈ s.votes → d = c)
    (hup : ∃ L, (c, s.epoch v, L) ∈ s.stood ∧ UpToDate ep L (s.log v)) :
    Inv ep Quorum (s.vote v c) :=
  { h with
    vote_le := by
      rintro w e d L (heq | hmem)
      · cases heq; exact le_rfl
      · exact h.vote_le w e d L hmem
    vote_unique := by
      rintro w e d d' L K (heq | hmem) (heq' | hmem')
      · cases heq; cases heq'; rfl
      · cases heq; exact (hv d' K hmem').symm
      · cases heq'; exact hv d L hmem
      · exact h.vote_unique w e d d' L K hmem hmem'
    vote_upToDate := by
      rintro w e d L (heq | hmem)
      · cases heq; exact hup
      · exact h.vote_upToDate w e d L hmem
    vote_sound := by
      rintro w e d L (heq | hmem)
      · cases heq; exact h.log_sound _
      · exact h.vote_sound w e d L hmem
    vote_kept := by
      rintro w e d m c' L hack (heq | hmem) hed
      · -- the new vote is cast with the voter's present log
        cases heq; exact h.ack_kept v e m hack
      · exact h.vote_kept w e d m c' L hack hmem hed
    elected_quorum := fun e d hd => by
      obtain ⟨Q, hQ, hall⟩ := h.elected_quorum e d hd
      refine ⟨Q, hQ, fun w hw => ?_⟩
      obtain ⟨L, hL, hrest⟩ := hall w hw
      exact ⟨L, Set.mem_insert_of_mem _ hL, hrest⟩ }

theorem le_elect (hnone : s.elected (s.epoch c) = none) : Le s (s.elect c) := by
  refine { Le.refl s with elected := fun e d hd => ?_, lead := fun e => ?_ }
  · have hne : e ≠ s.epoch c := by rintro rfl; rw [hnone] at hd; cases hd
    simp [State.elect, update_of_ne hne, hd]
  · by_cases hec : e = s.epoch c
    · subst hec; rw [h.lead_nil _ hnone]; exact nil_prefix
    · simp [State.elect, update_of_ne hec]

theorem Inv.elected_of_mem (hL : Sound ep s L) (ha : a ∈ L) : s.elected (ep a) ≠ none := by
  intro hnone
  obtain ⟨P, Q, rfl⟩ := append_of_mem ha
  have hP := hL P a ⟨Q, by simp⟩
  rw [h.lead_nil _ hnone] at hP
  simp at hP

theorem Inv.kept_mono (hle : Le s t) {m : ℕ} (hack : (v, e, m) ∈ s.acks)
    {p : ℕ → Prop} (hk : Kept s p e m L) : Kept t p e m L :=
  hk.mono hle (h.ack_le v e m hack).2.2 (fun _ hd => hd) (prefix_refl _)

theorem inv_elect {Q : Finset N} (hQ : Quorum Q)
    (hnone : s.elected (s.epoch c) = none) (hstood : (c, s.epoch c, s.log c) ∈ s.stood)
    (hvotes : ∀ v ∈ Q, ∃ L, (v, s.epoch c, c, L) ∈ s.votes) : Inv ep Quorum (s.elect c) := by
  have hle := le_elect h hnone
  have hlog_lt : ∀ a ∈ s.log c, ep a < s.epoch c := fun a ha =>
    lt_of_le_of_ne (h.log_le c a ha) fun heq =>
      h.elected_of_mem (h.log_sound c) ha (by rw [heq]; exact hnone)
  -- acknowledgements and elections of other epochs are as before
  have hne_of_elected : ∀ {e}, s.elected e ≠ none → e ≠ s.epoch c := by
    rintro e he rfl; exact he hnone
  refine { h with
    lead_nil := ?_
    start_prefix := ?_
    start_lt := (forall_update_iff _ fun e L => ∀ a ∈ L, ep a < e).2
      ⟨hlog_lt, fun e _ => h.start_lt e⟩
    lead_le := (forall_update_iff _ fun e L => ∀ a ∈ L, ep a ≤ e).2
      ⟨fun a ha => (hlog_lt a ha).le, fun e _ => h.lead_le e⟩
    lead_sound := (forall_update_iff _ fun _ L => Sound ep (s.elect c) L).2
      ⟨(h.log_sound c).mono hle.lead, fun e _ => (h.lead_sound e).mono hle.lead⟩
    log_sound := fun v => (h.log_sound v).mono hle.lead
    vote_sound := fun v e d L hv => (h.vote_sound v e d L hv).mono hle.lead
    vote_kept := fun v e d m c' L hack hv hed =>
      h.kept_mono hle hack (h.vote_kept v e d m c' L hack hv hed)
    ack_le := ?_
    ack_kept := fun v e m hack => h.kept_mono hle hack (h.ack_kept v e m hack)
    elected_le := (forall_update_iff _ fun e o => ∀ d, o = some d → e ≤ s.epoch d).2
      ⟨fun d hd => (Option.some.inj hd) ▸ le_rfl, fun e _ => h.elected_le e⟩
    elected_quorum := ?_ }
  · intro e he
    have hec : e ≠ s.epoch c := by rintro rfl; simp [State.elect] at he
    simp only [State.elect, update_of_ne hec] at he ⊢
    exact h.lead_nil e he
  · intro e
    by_cases hec : e = s.epoch c
    · subst hec; simp [State.elect]
    · simpa [State.elect, update_of_ne hec] using h.start_prefix e
  · intro v e m hack
    obtain ⟨h₁, h₂, h₃⟩ := h.ack_le v e m hack
    exact ⟨h₁, (hle.elected_ne h₂).1, h₃.trans (hle.lead e).length_le⟩
  · intro e d hd
    by_cases hec : e = s.epoch c
    · subst hec
      obtain rfl : c = d := by simpa [State.elect] using hd
      refine ⟨Q, hQ, fun v hv => ?_⟩
      obtain ⟨L, hL⟩ := hvotes v hv
      obtain ⟨K, hK, hup⟩ := h.vote_upToDate v _ c L hL
      obtain rfl := h.stood_unique c _ K _ hK hstood
      refine ⟨L, hL, by simpa [State.elect] using hup, fun d m hack hlt => ?_⟩
      -- nobody was elected in this epoch when the votes were cast
      have hkept : Kept s (· < s.epoch c) d m L := by
        intro X hX hlen
        rcases h.vote_kept v d _ m c L hack hL hlt X hX hlen with hin | ⟨u, hdu, hule, hne, hnot⟩
        · exact .inl hin
        · exact .inr ⟨u, hdu, lt_of_le_of_ne hule (hne_of_elected hne), hne, hnot⟩
      exact h.kept_mono hle hack hkept
    · have hd' : s.elected e = some d := by
        simpa [State.elect, update_of_ne hec] using hd
      obtain ⟨R, hR, hall⟩ := h.elected_quorum e d hd'
      refine ⟨R, hR, fun v hv => ?_⟩
      obtain ⟨L, hL, hup, hkept⟩ := hall v hv
      exact ⟨L, hL, by simpa [State.elect, update_of_ne hec] using hup,
        fun u m hack hlt => h.kept_mono hle hack (hkept u m hack hlt)⟩

theorem inv_extend [DecidableEq N]
    (hc : s.elected (s.epoch c) = some c) (hlog : s.log c = s.lead (s.epoch c))
    (ha : ep a = s.epoch c) : Inv ep Quorum (s.extend c a) := by
  have hle := le_extend (a := a) hlog
  have hgrow : ∀ v, s.log v <+: (s.extend c a).log v :=
    (forall_update_iff _ fun v L => s.log v <+: L).2
      ⟨prefix_append _ _, fun v _ => prefix_refl _⟩
  -- the extended log is sound because it is now the log of its own epoch
  have hsound : Sound ep (s.extend c a) (s.log c ++ [a]) := by
    intro P b hP
    rcases prefix_concat_iff.1 hP with heq | hpre
    · obtain ⟨rfl, hb⟩ := append_inj' heq rfl
      obtain rfl : b = a := by simpa using hb
      simp [ha, State.extend]
    · exact (h.log_sound c).mono hle.lead P b hpre
  have hentries : ∀ b ∈ s.log c ++ [a], ep b ≤ s.epoch c := by
    intro b hb
    rw [mem_append, mem_singleton] at hb
    rcases hb with hb | rfl
    · exact h.log_le c b hb
    · exact ha.le
  refine { h with
    lead_nil := ?_
    start_prefix := fun e => (h.start_prefix e).trans (hle.lead e)
    lead_le := (forall_update_iff _ fun e L => ∀ b ∈ L, ep b ≤ e).2
      ⟨hentries, fun e _ => h.lead_le e⟩
    lead_sound := (forall_update_iff _ fun _ L => Sound ep (s.extend c a) L).2
      ⟨hsound, fun e _ => (h.lead_sound e).mono hle.lead⟩
    log_sound := (forall_update_iff _ fun _ L => Sound ep (s.extend c a) L).2
      ⟨hsound, fun v _ => (h.log_sound v).mono hle.lead⟩
    log_le := (forall_update_iff _ fun v L => ∀ b ∈ L, ep b ≤ s.epoch v).2
      ⟨hentries, fun v _ => h.log_le v⟩
    vote_sound := fun v e d L hv => (h.vote_sound v e d L hv).mono hle.lead
    vote_kept := fun v e d m c' L hack hv hed =>
      h.kept_mono hle hack (h.vote_kept v e d m c' L hack hv hed)
    ack_le := ?_
    ack_kept := fun v e m hack => (h.ack_kept v e m hack).mono hle (h.ack_le v e m hack).2.2
      (fun _ hd => hd) (hgrow v)
    elected_quorum := ?_ }
  · intro e he
    have hec : e ≠ s.epoch c := by
      rintro rfl
      rw [show (s.extend c a).elected = s.elected from rfl, hc] at he
      cases he
    simp only [State.extend, update_of_ne hec]
    exact h.lead_nil e he
  · intro v e m hack
    obtain ⟨h₁, h₂, h₃⟩ := h.ack_le v e m hack
    exact ⟨h₁, h₂, h₃.trans (hle.lead e).length_le⟩
  · intro e d hd
    obtain ⟨R, hR, hall⟩ := h.elected_quorum e d hd
    refine ⟨R, hR, fun v hv => ?_⟩
    obtain ⟨L, hL, hup, hkept⟩ := hall v hv
    exact ⟨L, hL, hup, fun u m hack hlt => h.kept_mono hle hack (hkept u m hack hlt)⟩

theorem inv_adopt [DecidableEq N]
    (hne : s.elected (s.epoch v) ≠ none) (hL : L <+: s.lead (s.epoch v))
    (hkeep : ∀ P, P <+: s.log v → P <+: s.lead (s.epoch v) → P <+: L) :
    Inv ep Quorum (s.adopt v L) := by
  refine { h with
    log_sound := (forall_update_iff _ fun _ K => Sound ep (s.adopt v L) K).2
      ⟨(h.lead_sound _).anti hL, fun w _ => h.log_sound w⟩
    log_le := (forall_update_iff _ fun w L => ∀ a ∈ L, ep a ≤ s.epoch w).2
      ⟨fun a ha => h.lead_le _ a (hL.subset ha), fun w _ => h.log_le w⟩
    ack_kept := (forall_update_iff _ fun w K => ∀ e m, (w, e, m) ∈ s.acks →
      Kept (s.adopt v L) (· ≤ s.epoch w) e m K).2 ⟨fun e m hack => ?_, fun w _ => h.ack_kept w⟩ }
  intro X hX hlen
  rcases h.ack_kept v e m hack X hX hlen with hin | hout
  · rcases (h.ack_le v e m hack).1.eq_or_lt with heq | hlt
    · exact .inl (hkeep X hin (heq ▸ hX))
    · -- an earlier epoch's entries survive if this epoch's leader started with them
      by_cases hstart : X <+: s.start (s.epoch v)
      · exact .inl (hkeep X hin (hstart.trans (h.start_prefix _)))
      · exact .inr ⟨s.epoch v, hlt, le_rfl, hne, hstart⟩
  · exact .inr hout

theorem inv_ack {m : ℕ} (hne : s.elected (s.epoch v) ≠ none) (hm : m ≤ (s.lead (s.epoch v)).length)
    (hlog : (s.lead (s.epoch v)).take m <+: s.log v) : Inv ep Quorum (s.ack v m) := by
  refine { h with vote_kept := ?_, ack_le := ?_, ack_kept := ?_, elected_quorum := ?_ }
  · rintro w e d k c L (heq | hmem) hv hed
    · -- no vote of a later epoch was cast yet
      cases heq
      exact absurd (h.vote_le v d c L hv) (not_le.2 hed)
    · exact h.vote_kept w e d k c L hmem hv hed
  · rintro w e k (heq | hmem)
    · cases heq; exact ⟨le_rfl, hne, hm⟩
    · exact h.ack_le w e k hmem
  · rintro w e k (heq | hmem)
    · cases heq
      intro X hX hlen
      refine .inl (IsPrefix.trans ?_ hlog)
      exact prefix_take_iff.2 ⟨hX, hlen⟩
    · exact h.ack_kept w e k hmem
  · intro e d hd
    obtain ⟨R, hR, hall⟩ := h.elected_quorum e d hd
    refine ⟨R, hR, fun w hw => ?_⟩
    obtain ⟨L, hL, hup, hkept⟩ := hall w hw
    refine ⟨L, hL, hup, ?_⟩
    rintro u k (heq | hmem) hlt
    · cases heq
      exact absurd (h.vote_le v e d L hL) (not_le.2 hlt)
    · exact hkept u k hmem hlt

end

/-- What a step of `v` leaves to the other nodes. -/
structure Frame (v : N) (s t : State N A) : Prop where
  epoch : ∀ w, w ≠ v → t.epoch w = s.epoch w
  log : ∀ w, w ≠ v → t.log w = s.log w
  elected : ∀ e w, w ≠ v → t.elected e = some w → s.elected e = some w
  lead : ∀ e w, w ≠ v → s.elected e = some w → t.lead e = s.lead e
  votes : ∀ w e c L, w ≠ v → (w, e, c, L) ∈ t.votes → (w, e, c, L) ∈ s.votes

theorem Frame.refl (v : N) (s : State N A) : Frame v s s :=
  ⟨fun _ _ => rfl, fun _ _ => rfl, fun _ _ _ h => h, fun _ _ _ _ => rfl, fun _ _ _ _ _ h => h⟩

theorem Frame.trans {u : State N A} (hle : Le s t) (h : Frame v s t)
    (k : Frame v t u) : Frame v s u where
  epoch w hw := (k.epoch w hw).trans (h.epoch w hw)
  log w hw := (k.log w hw).trans (h.log w hw)
  elected e w hw he := h.elected e w hw (k.elected e w hw he)
  lead e w hw he := (k.lead e w hw (hle.elected e w he).1).trans (h.lead e w hw he)
  votes w e c L hw hv := h.votes w e c L hw (k.votes w e c L hw hv)

/-- **Every step enlarges the memory and keeps the invariant.** -/
theorem Step.le_inv [DecidableEq N] (hs : Step ep Quorum v s t)
    (h : Inv ep Quorum s) : Le s t ∧ Inv ep Quorum t := by
  cases hs with
  | bump e he => exact ⟨le_bump s he, inv_bump h he⟩
  | stand hc => exact ⟨le_stand s v, inv_stand h hc⟩
  | vote c hv hup => exact ⟨le_vote s v c, inv_vote h hv hup⟩
  | elect Q hQ hnone hstood hvotes => exact ⟨le_elect h hnone, inv_elect h hQ hnone hstood hvotes⟩
  | extend a hc hlog ha => exact ⟨le_extend hlog, inv_extend h hc hlog ha⟩
  | adopt L hne hL hkeep => exact ⟨le_adopt s v L, inv_adopt h hne hL hkeep⟩
  | ack m hne hm hlog => exact ⟨le_ack s v m, inv_ack h hne hm hlog⟩

theorem Step.frame [DecidableEq N] (hs : Step ep Quorum v s t) : Frame v s t := by
  cases hs with
  | bump e => exact { Frame.refl v s with epoch := fun w hw => update_of_ne hw _ _ }
  | stand => exact { Frame.refl v s with }
  | vote c =>
    refine { Frame.refl v s with votes := ?_ }
    rintro w e d L hw (heq | hmem)
    · cases heq; exact absurd rfl hw
    · exact hmem
  | elect Q hQ hnone =>
    refine { Frame.refl v s with elected := fun e w hw he => ?_, lead := fun e w hw he => ?_ }
    · by_cases hev : e = s.epoch v
      · subst hev
        exact absurd (by simpa [State.elect] using he : v = w) (Ne.symm hw)
      · simpa [State.elect, update_of_ne hev] using he
    · have hev : e ≠ s.epoch v := by rintro rfl; rw [hnone] at he; cases he
      simp [State.elect, update_of_ne hev]
  | extend a hc =>
    refine { Frame.refl v s with
      log := fun w hw => update_of_ne hw _ _, lead := fun e w hw he => ?_ }
    have hev : e ≠ s.epoch v := by
      rintro rfl; rw [hc] at he; cases he; exact hw rfl
    simp [State.extend, update_of_ne hev]
  | adopt L => exact { Frame.refl v s with log := fun w hw => update_of_ne hw _ _ }
  | ack m => exact { Frame.refl v s with }

variable (ep Quorum) in
/-- Some steps of `v` in a row. -/
def Moves [DecidableEq N] (v : N) : State N A → State N A → Prop :=
  Relation.ReflTransGen (Step ep Quorum v)

/-- The memory, the invariant and the other nodes after some steps of `v`. -/
theorem Moves.le_inv_frame [DecidableEq N] (hs : Moves ep Quorum v s t)
    (h : Inv ep Quorum s) : Le s t ∧ Inv ep Quorum t ∧ Frame v s t := by
  induction hs with
  | refl => exact ⟨Le.refl s, h, Frame.refl v s⟩
  | tail _ hstep ih =>
    obtain ⟨hle, hinv, hframe⟩ := ih
    obtain ⟨hle', hinv'⟩ := hstep.le_inv hinv
    exact ⟨hle.trans hle', hinv', hframe.trans hle hstep.frame⟩

end EpochLog
