import RandallFlare.Lib.EpochLog.Invariant

/-!
# Leader completeness and agreement

* `Chosen s e X` says that the log `X` ends in an entry of epoch `e` and was acknowledged by a
  quorum in that epoch;
* `Inv.chosen_start` is leader completeness: the leader of every later epoch starts with it;
* `Settled s e X` says that `X` is part of a log chosen in an epoch up to `e`, and
  `Inv.settled_compat` that any two settled logs agree.

The only assumption on quorums is that any two of them meet.
-/

namespace EpochLog

open List

variable {N A : Type*} {ep : A → ℕ} {Quorum : Finset N → Prop}

variable (ep Quorum) in
/-- The log `X` ends in an entry of epoch `e` and a quorum acknowledged it in that epoch. -/
def Chosen (s : State N A) (e : ℕ) (X : List A) : Prop :=
  X <+: s.lead e ∧ (∃ P a, X = P ++ [a] ∧ ep a = e) ∧
    ∃ Q, Quorum Q ∧ ∀ v ∈ Q, ∃ m, (v, e, m) ∈ s.acks ∧ X.length ≤ m

variable {s t : State N A} {e : ℕ} {X L : List A} {d : ℕ} {Y : List A}

theorem Chosen.mono (hle : Le s t) (h : Chosen ep Quorum s e X) : Chosen ep Quorum t e X := by
  obtain ⟨hX, hlast, Q, hQ, hall⟩ := h
  refine ⟨hX.trans (hle.lead e), hlast, Q, hQ, fun v hv => ?_⟩
  obtain ⟨m, hm, hlen⟩ := hall v hv
  exact ⟨m, hle.acks hm, hlen⟩

/-- In a sound log the last entry has the latest epoch. -/
theorem Inv.le_lastEp (h : Inv ep Quorum s) (hL : Sound ep s L)
    {a : A} (ha : a ∈ L) : ep a ≤ lastEp ep L := by
  obtain ⟨P, b, rfl⟩ : ∃ P b, L = P ++ [b] :=
    ⟨L.dropLast, L.getLast (ne_nil_of_mem ha), (dropLast_append_getLast _).symm⟩
  rw [lastEp_append_singleton]
  exact h.lead_le _ a ((hL P b (prefix_refl _)).subset ha)

/-- A log at least as up to date as one that extends `X` extends `X` too, provided `X` ends in
epoch `e` and every leader between `e` and the log's last epoch started with it. -/
theorem Inv.upToDate_prefix (h : Inv ep Quorum s) {S : List A}
    (hX : X <+: s.lead e) (hlast : ∃ P a, X = P ++ [a] ∧ ep a = e) (hL : Sound ep s L)
    (hXL : X <+: L) (hS : Sound ep s S) (hup : UpToDate ep S L)
    (hmid : ∀ d, e < d → d ≤ lastEp ep S → s.elected d ≠ none → X <+: s.start d) : X <+: S := by
  obtain ⟨P, a, rfl, rfl⟩ := hlast
  have haL : ep a ≤ lastEp ep L := h.le_lastEp hL (hXL.subset (by simp))
  have hlenL : (P ++ [a]).length ≤ L.length := hXL.length_le
  have hSne : S ≠ [] := by
    rintro rfl
    rcases hup with hlt | ⟨-, hlen⟩
    · simp at hlt
    · simp at hlen; simp [hlen] at hlenL
  obtain ⟨R, b, rfl⟩ : ∃ R b, S = R ++ [b] :=
    ⟨S.dropLast, S.getLast hSne, (dropLast_append_getLast hSne).symm⟩
  have hSlead := hS R b (prefix_refl _)
  simp only [UpToDate, lastEp_append_singleton] at hup hmid
  rcases (show ep a ≤ ep b by omega).eq_or_lt with heq | hlt
  · -- both logs end in the epoch of `X`, and the longer one contains it
    rw [← heq] at hSlead
    exact prefix_of_prefix_length_le hX hSlead (by omega)
  · have hstart : P ++ [a] <+: s.start (ep b) :=
      hmid (ep b) hlt le_rfl (h.elected_of_mem hS (by simp))
    rcases le_or_gt (P ++ [a]).length (R ++ [b]).length with hlen | hlen
    · exact prefix_of_prefix_length_le (hstart.trans (h.start_prefix _)) hSlead hlen
    · -- a shorter log would end inside what the leader of its last epoch started with
      have hin : R ++ [b] <+: s.start (ep b) :=
        prefix_of_prefix_length_le hSlead (h.start_prefix _)
          (hlen.le.trans hstart.length_le)
      exact absurd (h.start_lt _ b (hin.subset (by simp))) (lt_irrefl _)

theorem Inv.chosen_elected (h : Inv ep Quorum s)
    (hX : Chosen ep Quorum s e X) : s.elected e ≠ none := by
  obtain ⟨hlead, ⟨P, a, rfl, -⟩, -⟩ := hX
  intro hnone
  rw [h.lead_nil e hnone] at hlead
  simp at hlead

variable (ep Quorum) in
/-- The log `X` is part of a log chosen in an epoch up to `e`. -/
def Settled (s : State N A) (e : ℕ) (X : List A) : Prop :=
  X = [] ∨ ∃ d Y, d ≤ e ∧ Chosen ep Quorum s d Y ∧ X <+: Y

theorem Settled.mono (hle : Le s t) {e' : ℕ}
    (h : Settled ep Quorum s e X) (he : e ≤ e') : Settled ep Quorum t e' X := by
  rcases h with rfl | ⟨d, Y, hd, hY, hXY⟩
  · exact .inl rfl
  · exact .inr ⟨d, Y, hd.trans he, hY.mono hle, hXY⟩

theorem Settled.anti (h : Settled ep Quorum s e Y) (hXY : X <+: Y) : Settled ep Quorum s e X := by
  rcases h with rfl | ⟨d, Z, hd, hZ, hYZ⟩
  · exact .inl (prefix_nil.1 hXY)
  · exact .inr ⟨d, Z, hd, hZ, hXY.trans hYZ⟩

section

variable (hmeet : ∀ Q R, Quorum Q → Quorum R → ∃ v, v ∈ Q ∧ v ∈ R) (h : Inv ep Quorum s)
include hmeet h

/-- **Leader completeness**: the leader of every later epoch starts with a chosen log. -/
theorem Inv.chosen_start (hX : Chosen ep Quorum s e X) (hd : s.elected d ≠ none) (hed : e < d) :
    X <+: s.start d := by
  induction d using Nat.strong_induction_on with
  | _ d ih =>
    obtain ⟨hlead, hlast, Q, hQ, hacks⟩ := hX
    obtain ⟨c, hc⟩ := Option.ne_none_iff_exists'.1 hd
    obtain ⟨R, hR, hvotes⟩ := h.elected_quorum d c hc
    -- a voter of the later leader acknowledged `X`
    obtain ⟨v, hvQ, hvR⟩ := hmeet Q R hQ hR
    obtain ⟨m, hm, hlen⟩ := hacks v hvQ
    obtain ⟨L, hL, hup, hkept⟩ := hvotes v hvR
    have hXL : X <+: L := by
      rcases hkept e m hm hed X hlead hlen with hin | ⟨u, heu, hud, hne, hnot⟩
      · exact hin
      · exact absurd (ih u hud hne heu) hnot
    have hSsound := (h.lead_sound d).anti (h.start_prefix d)
    refine h.upToDate_prefix hlead hlast (h.vote_sound v d c L hL) hXL hSsound hup
      fun u heu hu hne => ih u ?_ hne heu
    -- the entries a leader starts with are of earlier epochs
    rcases eq_nil_or_concat' (s.start d) with hnil | ⟨R', b, hRb⟩
    · rw [hnil] at hu; simp at hu; omega
    · rw [hRb, lastEp_append_singleton] at hu
      exact lt_of_le_of_lt hu (h.start_lt d b (by rw [hRb]; simp))

theorem Inv.chosen_lead (hX : Chosen ep Quorum s e X) (hd : s.elected d ≠ none) (hed : e ≤ d) :
    X <+: s.lead d := by
  rcases hed.eq_or_lt with rfl | hlt
  · exact hX.1
  · exact (h.chosen_start hmeet hX hd hlt).trans (h.start_prefix d)

/-- Any two chosen logs are prefixes of one another. -/
theorem Inv.chosen_compat
    (hX : Chosen ep Quorum s e X) (hY : Chosen ep Quorum s d Y) : X <+: Y ∨ Y <+: X := by
  rcases le_total e d with hed | hde
  · exact prefix_or_prefix_of_prefix (h.chosen_lead hmeet hX (h.chosen_elected hY) hed) hY.1
  · exact prefix_or_prefix_of_prefix hX.1 (h.chosen_lead hmeet hY (h.chosen_elected hX) hde)

/-- The log of an epoch extends everything settled up to that epoch. -/
theorem Inv.settled_lead (hX : Settled ep Quorum s e X) (he : s.elected e ≠ none) :
    X <+: s.lead e := by
  rcases hX with rfl | ⟨d, Y, hd, hY, hXY⟩
  · exact nil_prefix
  · exact hXY.trans (h.chosen_lead hmeet hY he hd)

/-- **Agreement**: any two settled logs are prefixes of one another. -/
theorem Inv.settled_compat
    (hX : Settled ep Quorum s e X) (hY : Settled ep Quorum s d Y) : X <+: Y ∨ Y <+: X := by
  rcases hX with rfl | ⟨e', X', -, hX', hXX'⟩
  · exact .inl nil_prefix
  rcases hY with rfl | ⟨d', Y', -, hY', hYY'⟩
  · exact .inr nil_prefix
  rcases h.chosen_compat hmeet hX' hY' with hXY | hYX
  · exact prefix_or_prefix_of_prefix (hXX'.trans hXY) hYY'
  · exact prefix_or_prefix_of_prefix hXX' (hYY'.trans hYX)

end

end EpochLog
