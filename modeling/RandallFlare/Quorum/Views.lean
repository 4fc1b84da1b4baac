import RandallFlare.Quorum.Raft
import RandallFlare.Lib.EpochLog.Agreement

/-!
# The whole log behind an instance

An instance keeps the entries after its snapshot point only.  `Views r L` says that `L` is the
whole log `r` stands for: entry number `n` is the `n`-th of `L`, the entries up to `baseSeq` are
compacted and the others are `r.log`.  The lemmas below read every accessor of the source off `L`,
so that nothing later has to compute with `seq - baseSeq - 1`.  `Contiguous` says of `r.log` alone
that its entries carry their positions.
-/

namespace RandallFlare

open EpochLog List

/-- Entries carry their positions, counted from one. -/
def Numbered (L : List Entry) : Prop := ∀ i e, L[i]? = some e → e.seq = i + 1

theorem Numbered.anti {K L : List Entry} (h : Numbered L) (hK : K <+: L) : Numbered K := by
  intro i e he
  obtain ⟨T, rfl⟩ := hK
  have hi : i < K.length := (List.getElem?_eq_some_iff.1 he).1
  exact h i e (by rw [getElem?_append_left hi]; exact he)

variable {e : Entry} {L : List Entry}

theorem Numbered.append_singleton (h : Numbered L)
    (he : e.seq = L.length + 1) : Numbered (L ++ [e]) := by
  intro i x hx
  rcases lt_or_ge i L.length with hi | hi
  · rw [getElem?_append_left hi] at hx
    exact h i x hx
  · rw [getElem?_append_right hi] at hx
    obtain ⟨hlt, rfl⟩ := List.getElem?_eq_some_iff.1 hx
    simp only [length_singleton] at hlt
    simp only [show i - L.length = 0 by omega, getElem_cons_zero]
    omega

theorem Numbered.eq_of_seq (h : Numbered L) {a b : Entry} (ha : a ∈ L)
    (hb : b ∈ L) (hseq : a.seq = b.seq) : a = b := by
  obtain ⟨i, hi⟩ := mem_iff_getElem?.1 ha
  obtain ⟨j, hj⟩ := mem_iff_getElem?.1 hb
  have h₁ := h i a hi
  have h₂ := h j b hj
  obtain rfl : i = j := by omega
  exact Option.some.inj (hi.symm.trans hj)

theorem lastEp_take_succ {i : ℕ} (h : L[i]? = some e) :
    lastEp Entry.epoch (L.take (i + 1)) = e.epoch := by
  rw [take_add_one, h, Option.toList_some, lastEp_append_singleton]

/-- Entries carry their positions after the snapshot point. -/
def Contiguous (r : Raft) : Prop := ∀ i e, r.log[i]? = some e → e.seq = r.baseSeq + i + 1

namespace Contiguous

variable {r : Raft} (h : Contiguous r) {f : ℕ}

include h

theorem last_snd : r.last.2 = r.baseSeq + r.log.length := by
  unfold Raft.last
  rcases eq_nil_or_concat' r.log with hnil | ⟨K, e, hK⟩
  · simp [hnil]
  · have := h K.length e (by simp [hK])
    simp [hK, this]
    omega

theorem split_at (hf : r.baseSeq < f) : (∀ e ∈ r.log.take (f - r.baseSeq - 1), ¬ f ≤ e.seq) ∧
      ∀ e ∈ r.log.drop (f - r.baseSeq - 1), f ≤ e.seq := by
  constructor
  · intro e he
    obtain ⟨i, hi⟩ := mem_iff_getElem?.1 he
    obtain ⟨hlt, -⟩ := List.getElem?_eq_some_iff.1 hi
    rw [length_take] at hlt
    rw [getElem?_take, if_pos (by omega)] at hi
    have := h _ e hi
    omega
  · intro e he
    obtain ⟨i, hi⟩ := mem_iff_getElem?.1 he
    rw [getElem?_drop] at hi
    have := h _ e hi
    omega

theorem filter_lt (hf : r.baseSeq < f) :
    (r.log.filter fun e => ¬ f ≤ e.seq) = r.log.take (f - r.baseSeq - 1) := by
  obtain ⟨hlt, hge⟩ := h.split_at hf
  conv_lhs => rw [← take_append_drop (f - r.baseSeq - 1) r.log]
  rw [filter_append, filter_eq_self.2 (by simpa using hlt),
    filter_eq_nil_iff.2 (by simpa using hge), append_nil]

theorem filter_ge (hf : r.baseSeq < f) :
    (r.log.filter fun e => f ≤ e.seq) = r.log.drop (f - r.baseSeq - 1) := by
  obtain ⟨hlt, hge⟩ := h.split_at hf
  conv_lhs => rw [← take_append_drop (f - r.baseSeq - 1) r.log]
  rw [filter_append, filter_eq_nil_iff.2 (by simpa using hlt),
    filter_eq_self.2 (by simpa using hge), nil_append]

theorem extend {n : ℕ} {es : List Entry} (hn : n ≤ r.log.length)
    (hes : ∀ i x, es[i]? = some x → x.seq = r.baseSeq + n + i + 1) :
    Contiguous { r with log := r.log.take n ++ es } := by
  intro i x hx
  have hlen : (r.log.take n).length = n := by rw [length_take]; omega
  rcases lt_or_ge i n with hi | hi
  · rw [getElem?_append_left (by omega), getElem?_take, if_pos hi] at hx
    exact h i x hx
  · rw [getElem?_append_right (by omega), hlen] at hx
    have := hes (i - n) x hx
    simp only
    omega

theorem push {n : ℕ} (hn : n ≤ r.log.length)
    (he : e.seq = r.baseSeq + n + 1) : Contiguous { r with log := r.log.take n ++ [e] } := by
  refine h.extend hn fun i x hx => ?_
  cases i with
  | zero =>
    cases hx
    exact he
  | succ i => cases hx

end Contiguous

/-- `L` is the whole log of `r`. -/
structure Views (r : Raft) (L : List Entry) : Prop where
  base_le : r.baseSeq ≤ L.length
  log : r.log = L.drop r.baseSeq
  baseEpoch : r.baseEpoch = lastEp Entry.epoch (L.take r.baseSeq)
  numbered : Numbered L

namespace Views

variable {r : Raft} {L : List Entry}

theorem new (me : PublicId) (group : List PublicId) : Views (Raft.new me group) [] where
  base_le := le_rfl
  log := rfl
  baseEpoch := rfl
  numbered i e h := by simp at h

theorem congr {r' : Raft} (h : Views r L) (hlog : r'.log = r.log) (hb : r'.baseSeq = r.baseSeq)
    (he : r'.baseEpoch = r.baseEpoch) : Views r' L where
  base_le := hb ▸ h.base_le
  log := by rw [hlog, h.log, hb]
  baseEpoch := by rw [he, h.baseEpoch, hb]
  numbered := h.numbered

section

variable (h : Views r L)

include h

theorem take_append_log : L.take r.baseSeq ++ r.log = L := by
  rw [h.log, take_append_drop]

theorem last : r.last = (lastEp Entry.epoch L, L.length) := by
  unfold Raft.last
  rcases h.base_le.eq_or_lt with heq | hlt
  · rw [h.log, heq, drop_length, getLast?_nil]
    simp only [h.baseEpoch, heq, take_length]
  · rw [h.log, getLast?_drop, if_neg (by omega)]
    obtain ⟨K, e, rfl⟩ : ∃ K e, L = K ++ [e] := by
      rcases eq_nil_or_concat' L with rfl | hcat
      · simp at hlt
      · exact hcat
    have hseq := h.numbered K.length e (by simp)
    simp [hseq]

theorem entry (n : ℕ) : r.entry n = if n ≤ r.baseSeq then none else L[n - 1]? := by
  unfold Raft.entry
  split_ifs with hn
  · rfl
  · rw [h.log, getElem?_drop]
    congr 1
    omega

theorem entry_of_lt {n : ℕ} (hn : r.baseSeq < n) : r.entry n = L[n - 1]? := by
  rw [h.entry, if_neg (by omega)]

theorem epochAt {n : ℕ} (hb : r.baseSeq ≤ n) (hn : n ≤ L.length) :
    r.epochAt n = some (lastEp Entry.epoch (L.take n)) := by
  unfold Raft.epochAt
  split_ifs with heq
  · rw [heq, h.baseEpoch]
  · obtain ⟨m, rfl⟩ : ∃ m, n = m + 1 := ⟨n - 1, by omega⟩
    have hlt : m < L.length := by omega
    have hm : L[m]? = some L[m] := getElem?_eq_getElem hlt
    rw [h.entry_of_lt (by omega), Nat.add_sub_cancel, hm, lastEp_take_succ hm]
    rfl

theorem epochAt_of_gt {n : ℕ} (hn : L.length < n) : r.epochAt n = none := by
  have := h.base_le
  unfold Raft.epochAt
  rw [if_neg (by omega), h.entry_of_lt (by omega), getElem?_eq_none (by omega)]
  rfl

theorem contiguous : Contiguous r := by
  intro i e he
  rw [h.log, getElem?_drop] at he
  exact h.numbered _ e he

theorem filter_log {n : ℕ} (hb : r.baseSeq < n) :
    (r.log.filter fun e => n ≤ e.seq) = L.drop (n - 1) := by
  rw [h.contiguous.filter_ge hb, h.log, drop_drop]
  congr 1
  omega

theorem applyLoop (k a : ℕ) (hb : r.baseSeq ≤ a) : r.applyLoop k a = (L.drop a).take k := by
  induction k generalizing a with
  | zero => simp [Raft.applyLoop]
  | succ k ih =>
    rw [Raft.applyLoop, h.entry_of_lt (by omega), Nat.add_sub_cancel, ih (a + 1) (by omega)]
    rcases lt_or_ge a L.length with ha | ha
    · rw [getElem?_eq_getElem ha, drop_eq_getElem_cons ha, take_succ_cons]
      rfl
    · rw [getElem?_eq_none ha, drop_eq_nil_of_le ha,
        drop_eq_nil_of_le (show L.length ≤ a + 1 by omega)]
      simp

theorem snapshotPoint (hb : r.baseSeq ≤ r.applied) (ha : r.applied ≤ L.length) :
    r.snapshotPoint = (r.applied, lastEp Entry.epoch (L.take r.applied)) := by
  have hat := h.epochAt hb ha
  unfold Raft.epochAt at hat
  unfold Raft.snapshotPoint
  split_ifs with heq
  · rw [heq, h.baseEpoch]
  · rw [if_neg heq] at hat
    rw [hat]
    rfl

theorem append {es : List Entry} (hnum : Numbered (L ++ es)) :
    Views { r with log := r.log ++ es } (L ++ es) where
  base_le := by have := h.base_le; simp; omega
  log := by
    rw [drop_append_of_le_length h.base_le, h.log]
  baseEpoch := by
    rw [take_append_of_le_length h.base_le, h.baseEpoch]
  numbered := hnum

theorem push (he : e.seq = L.length + 1) :
    Views { r with log := r.log ++ [e] } (L ++ [e]) := h.append (h.numbered.append_singleton he)

theorem truncate {n : ℕ} (hb : r.baseSeq ≤ n) :
    Views { r with log := r.log.take (n - r.baseSeq) } (L.take n) where
  base_le := by have := h.base_le; simp; omega
  log := by
    rw [h.log, drop_take]
  baseEpoch := by
    rw [take_take, min_eq_left hb, h.baseEpoch]
  numbered := h.numbered.anti (List.take_prefix _ _)

theorem compact (keepTail : ℕ) : Views (r.compact keepTail).1 L := by
  unfold Raft.compact
  dsimp only
  split_ifs with hle
  · exact h
  · rw [h.entry_of_lt (by omega)]
    cases he : L[r.applied - keepTail - 1]? with
    | none => exact h
    | some e =>
      obtain ⟨hlt, -⟩ := List.getElem?_eq_some_iff.1 he
      refine ⟨by simp only; omega, ?_, ?_, h.numbered⟩
      · simp only [h.log, drop_drop]
        congr 1
        omega
      · simp only
        rw [← lastEp_take_succ he]
        congr 2
        omega

end

end Views

end RandallFlare
