import RandallFlare.Signed.Cron
import RandallFlare.Lib.Decimal
import RandallFlare.Lib.Fallible

/-!
# The fields of a cron expression

What `parse_field` of `rf-core/src/cron.rs` makes of a field, compared with the values that its text
denotes.  The loop that runs from the lowest value of a part to the highest adds the step in 32 bits:
a step close to `2 ^ 32` leads back to smaller values.

* `CronSpan`, `Spells`: the parts of a field and the texts that spell them;
* `CronSpan.Denotes`: the values of a part; `CronSpan.Wraps`: those that only the loop sets;
* `parsePart_eq_ok_iff`, `parseField_eq_ok_iff`, `parse_eq_ok_iff`: what the parser accepts;
* `readsRight_iff` is the result.
-/

namespace RandallFlare

open Text List

open Fallible (bind_eq_ok)

/-- One part of a field: from `lo` to `hi` in steps. -/
structure CronSpan where
  lo : ℕ
  hi : ℕ
  step : ℕ
  deriving DecidableEq

/-- The part without its step: `*`, a number, or two of them. -/
inductive SpellsRange (min max : ℕ) : List Char → ℕ → ℕ → Prop
  | star : SpellsRange min max ['*'] min max
  | value {t : List Char} {n : ℕ} (h : parseDecimal t = some n) : SpellsRange min max t n n
  | between {a b : List Char} {lo hi : ℕ} (ha : parseDecimal a = some lo)
      (hb : parseDecimal b = some hi) : SpellsRange min max (a ++ '-' :: b) lo hi

/-- A part, with or without a step. -/
inductive Spells (min max : ℕ) : List Char → CronSpan → Prop
  | plain {r : List Char} {lo hi : ℕ} (h : SpellsRange min max r lo hi) :
      Spells min max r ⟨lo, hi, 1⟩
  | stepped {r t : List Char} {lo hi step : ℕ} (h : SpellsRange min max r lo hi)
      (ht : parseDecimal t = some step) : Spells min max (r ++ '/' :: t) ⟨lo, hi, step⟩

namespace CronSpan

/-- The values lie within the bounds and in order, and the step is a positive 32-bit number. -/
structure Within (s : CronSpan) (min max : ℕ) : Prop where
  min_le : min ≤ s.lo
  lo_le : s.lo ≤ s.hi
  le_max : s.hi ≤ max
  step_pos : 0 < s.step
  step_lt : s.step < 2 ^ 32

/-- The values of a part. -/
def Denotes (s : CronSpan) (v : ℕ) : Prop := (∃ k, v = s.lo + k * s.step) ∧ v ≤ s.hi

/-- The values that the loop comes back to when the addition wraps around. -/
def Wraps (s : CronSpan) (v : ℕ) : Prop :=
  2 ^ 32 ≤ s.lo + s.step ∧ v < s.lo ∧ 2 ^ 32 - s.step ∣ s.lo - v

end CronSpan

/-! ### The parser -/

variable {t : List Char} {n min max lo hi : ℕ} {r part : List Char} {s : CronSpan} {step : ℕ}
  {mask mask' : BitVec 64} {v : ℕ} {spans : List CronSpan} {field : List Char}

theorem not_mem_of_parseDecimal (h : parseDecimal t = some n)
    {c : Char} (hc : c ≠ '+') (hc' : c.isDigit = false) : c ∉ t := fun hmem =>
  (isDigit_of_parseDecimal h hmem).elim hc fun hd => by rw [hc'] at hd; cases hd

theorem slash_not_mem (h : SpellsRange min max r lo hi) : '/' ∉ r := by
  cases h with
  | star => decide
  | value h => exact not_mem_of_parseDecimal h (by decide) (by decide)
  | between ha hb =>
    rw [mem_append, mem_cons, not_or, not_or]
    exact ⟨not_mem_of_parseDecimal ha (by decide) (by decide), by decide,
      not_mem_of_parseDecimal hb (by decide) (by decide)⟩

theorem SpellsRange.unique {lo' hi' : ℕ}
    (h : SpellsRange min max r lo hi) (h' : SpellsRange min max r lo' hi') :
    lo = lo' ∧ hi = hi' := by
  have hdash : ∀ {t : List Char} {n : ℕ}, parseDecimal t = some n → '-' ∉ t := fun ht =>
    not_mem_of_parseDecimal ht (by decide) (by decide)
  generalize hr : r = q at h'
  cases h with
  | star =>
    cases h' with
    | star => exact ⟨rfl, rfl⟩
    | value h' => rw [← hr] at h'; cases h'
    | between ha hb => exact absurd (congrArg ('-' ∈ ·) hr) (by simp)
  | value h =>
    cases h' with
    | star => rw [hr] at h; cases h
    | value h' =>
      rw [hr, h', Option.some.injEq] at h
      exact ⟨h.symm, h.symm⟩
    | between ha hb => exact absurd (by rw [hr]; simp) (hdash h)
  | between ha hb =>
    cases h' with
    | star => exact absurd (congrArg ('-' ∈ ·) hr) (by simp)
    | value h' => exact absurd (by rw [← hr]; simp) (hdash h')
    | between ha' hb' =>
      obtain ⟨rfl, -, rfl⟩ := (append_cons_inj_of_notMem (hdash ha) (hdash hb)).1 hr
      rw [ha', Option.some.injEq] at ha
      rw [hb', Option.some.injEq] at hb
      exact ⟨ha.symm, hb.symm⟩

theorem Spells.unique {s' : CronSpan}
    (h : Spells min max part s) (h' : Spells min max part s') : s = s' := by
  generalize hp : part = q at h'
  cases h with
  | plain h =>
    cases h' with
    | plain h' =>
      subst hp
      obtain ⟨rfl, rfl⟩ := h.unique h'
      rfl
    | stepped h' ht' => exact absurd (by rw [hp]; simp) (slash_not_mem h)
  | stepped h ht =>
    cases h' with
    | plain h' => exact absurd (by rw [← hp]; simp) (slash_not_mem h')
    | stepped h' ht' =>
      obtain ⟨rfl, -, rfl⟩ := (append_cons_inj_of_notMem (slash_not_mem h)
        (not_mem_of_parseDecimal ht (by decide) (by decide))).1 hp
      obtain ⟨rfl, rfl⟩ := h.unique h'
      rw [ht', Option.some.injEq] at ht
      rw [ht]

theorem spellsRange_of_parseRange
    (h : parseRange part r min max = .ok (lo, hi)) : SpellsRange min max r lo hi := by
  unfold parseRange at h
  split_ifs at h with hstar
  · cases h
    rw [hstar]
    exact .star
  · cases hsplit : splitOnce '-' r with
    | none =>
      rw [hsplit] at h
      cases hv : parseUnsigned 32 r with
      | none => rw [hv] at h; cases h
      | some v =>
        rw [hv] at h
        cases h
        exact .value (parseUnsigned_eq_some_iff.1 hv).1
    | some p =>
      rw [hsplit] at h
      obtain ⟨a, b⟩ := p
      dsimp only at h
      split at h
      · rename_i ha hb
        cases h
        rw [eq_of_splitOnce hsplit]
        exact .between (parseUnsigned_eq_some_iff.1 ha).1 (parseUnsigned_eq_some_iff.1 hb).1
      · cases h

theorem parseRange_of_spellsRange
    (h : SpellsRange min max r lo hi) (hlo : lo < 2 ^ 32) (hhi : hi < 2 ^ 32) :
    parseRange part r min max = .ok (lo, hi) := by
  unfold parseRange
  cases h with
  | star => rw [if_pos rfl]
  | value h =>
    have hv := parseUnsigned_eq_some_iff.2 ⟨h, hlo⟩
    have hdash := not_mem_of_parseDecimal h (c := '-') (by decide) (by decide)
    rw [if_neg (fun hstar => by rw [hstar] at hv; cases hv), splitOnce_eq_none.2 hdash, hv]
  | @between a b _ _ ha hb =>
    have hdash := not_mem_of_parseDecimal ha (c := '-') (by decide) (by decide)
    rw [if_neg (fun hstar => by simpa using congrArg ('-' ∈ ·) hstar), splitOnce_append hdash]
    dsimp only
    rw [parseUnsigned_eq_some_iff.2 ⟨ha, hlo⟩, parseUnsigned_eq_some_iff.2 ⟨hb, hhi⟩]

theorem parseStep_cases (h : parseStep part = .ok (r, step)) : (part = r ∧ step = 1) ∨
      ∃ t, part = r ++ '/' :: t ∧ parseUnsigned 32 t = some step ∧ 0 < step := by
  unfold parseStep at h
  cases hsplit : splitOnce '/' part with
  | none =>
    rw [hsplit] at h
    cases h
    exact .inl ⟨rfl, rfl⟩
  | some p =>
    obtain ⟨q, t⟩ := p
    rw [hsplit] at h
    dsimp only at h
    cases ht : parseUnsigned 32 t with
    | none => rw [ht] at h; cases h
    | some n =>
      rw [ht] at h
      dsimp only at h
      split_ifs at h with hzero
      cases h
      exact .inr ⟨t, eq_of_splitOnce hsplit, ht, Nat.pos_of_ne_zero hzero⟩

theorem parseStep_plain (hr : '/' ∉ r) : parseStep r = .ok (r, 1) := by
  rw [parseStep, splitOnce_eq_none.2 hr]

theorem parseStep_stepped (hr : '/' ∉ r) (ht : parseUnsigned 32 t = some step) (hstep : 0 < step) :
    parseStep (r ++ '/' :: t) = .ok (r, step) := by
  rw [parseStep, splitOnce_append hr]
  dsimp only
  rw [ht]
  exact if_neg hstep.ne'

theorem exists_parse_of_spells (hmax : max < 2 ^ 32)
    (h : Spells min max part s) (hs : s.Within min max) :
    ∃ r, parseStep part = .ok (r, s.step) ∧ parseRange part r min max = .ok (s.lo, s.hi) := by
  have hhi : s.hi < 2 ^ 32 := hs.le_max.trans_lt hmax
  have hlo : s.lo < 2 ^ 32 := hs.lo_le.trans_lt hhi
  cases h with
  | plain h => exact ⟨part, parseStep_plain (slash_not_mem h), parseRange_of_spellsRange h hlo hhi⟩
  | stepped h ht =>
    have hstep := parseUnsigned_eq_some_iff.2 ⟨ht, hs.step_lt⟩
    exact ⟨_, parseStep_stepped (slash_not_mem h) hstep hs.step_pos,
      parseRange_of_spellsRange h hlo hhi⟩

/-- **A part is accepted if and only if it spells a part within the bounds.** -/
theorem parsePart_eq_ok_iff (hmax : max < 2 ^ 32) : parsePart min max mask part = .ok mask' ↔
      ∃ s, Spells min max part s ∧ s.Within min max ∧ mask' = fillMask s.hi s.step 64 s.lo mask := by
  have hout : ∀ {s : CronSpan}, ¬ (s.lo < min ∨ s.hi > max ∨ s.lo > s.hi) ↔
      min ≤ s.lo ∧ s.lo ≤ s.hi ∧ s.hi ≤ max := by omega
  constructor
  · intro h
    obtain ⟨⟨r, step⟩, hstep, h⟩ := bind_eq_ok.1 h
    obtain ⟨⟨lo, hi⟩, hrange, h⟩ := bind_eq_ok.1 h
    have hspells := spellsRange_of_parseRange hrange
    dsimp only at h
    split_ifs at h with hbounds
    · cases h
    · cases h
      obtain ⟨hmin, hle, hmax'⟩ := hout (s := ⟨lo, hi, step⟩).1 hbounds
      rcases parseStep_cases hstep with ⟨rfl, rfl⟩ | ⟨t, rfl, ht, hpos⟩
      · exact ⟨⟨lo, hi, 1⟩, .plain hspells, ⟨hmin, hle, hmax', Nat.one_pos, by norm_num⟩, rfl⟩
      · obtain ⟨ht, hlt⟩ := parseUnsigned_eq_some_iff.1 ht
        exact ⟨⟨lo, hi, step⟩, .stepped hspells ht, ⟨hmin, hle, hmax', hpos, hlt⟩, rfl⟩
  · rintro ⟨s, hspells, hwithin, rfl⟩
    have hbounds := hout.2 ⟨hwithin.min_le, hwithin.lo_le, hwithin.le_max⟩
    obtain ⟨r, hstep, hrange⟩ := exists_parse_of_spells hmax hspells hwithin
    exact bind_eq_ok.2 ⟨_, hstep, bind_eq_ok.2 ⟨_, hrange, if_neg hbounds⟩⟩

/-- The field spells the parts, and they lie within the bounds. -/
def Reads (field : List Char) (min max : ℕ) (spans : List CronSpan) : Prop :=
  Forall₂ (Spells min max) (field.splitOn ',') spans ∧ ∀ s ∈ spans, s.Within min max

/-- The bits of a part, added to a mask. -/
def CronSpan.fill (mask : BitVec 64) (s : CronSpan) : BitVec 64 :=
  fillMask s.hi s.step 64 s.lo mask

theorem foldlM_parsePart_eq_ok_iff (hmax : max < 2 ^ 32) {parts : List (List Char)} :
    parts.foldlM (parsePart min max) mask = .ok mask' ↔
      ∃ spans, Forall₂ (Spells min max) parts spans ∧ (∀ s ∈ spans, s.Within min max) ∧
        mask' = spans.foldl CronSpan.fill mask := by
  induction parts generalizing mask with
  | nil =>
    constructor
    · intro h
      cases h
      exact ⟨[], .nil, forall_mem_nil _, rfl⟩
    · rintro ⟨spans, hspans, -, rfl⟩
      cases hspans
      rfl
  | cons part parts ih =>
    rw [foldlM_cons, bind_eq_ok]
    constructor
    · rintro ⟨m, hm, h⟩
      obtain ⟨s, hs, hwithin, rfl⟩ := (parsePart_eq_ok_iff hmax).1 hm
      obtain ⟨spans, hspans, hall, rfl⟩ := ih.1 h
      exact ⟨s :: spans, .cons hs hspans, forall_mem_cons.2 ⟨hwithin, hall⟩, rfl⟩
    · rintro ⟨spans, hspans, hall, rfl⟩
      cases hspans with
      | @cons _ s _ spans hs hspans =>
        obtain ⟨hwithin, hall⟩ := forall_mem_cons.1 hall
        exact ⟨s.fill mask, (parsePart_eq_ok_iff hmax).2 ⟨s, hs, hwithin, rfl⟩,
          ih.2 ⟨spans, hspans, hall, rfl⟩⟩

/-! ### The loop -/

theorem getLsbD_or_shiftLeft (mask : BitVec 64) (hv : v < 64) (i : ℕ) :
    (mask ||| (1#64 <<< v)).getLsbD i ↔ mask.getLsbD i = true ∨ i = v := by
  have hbit : (1#64 <<< v).getLsbD i ↔ i = v := by
    simp
    omega
  rw [BitVec.getLsbD_or, Bool.or_eq_true, hbit]

theorem fillMask_of_lt (h : hi < v) (n : ℕ) (mask : BitVec 64) :
    fillMask hi step n v mask = mask := by
  cases n with
  | zero => rfl
  | succ n => rw [fillMask, if_neg (by omega)]

/-- The bits that the loop sets if the addition does not wrap around. -/
theorem getLsbD_fillMask_up (hhi : hi < 64) (hstep : 0 < step)
    (hwrap : hi + step < 2 ^ 32) (hn : hi < v + n) (mask : BitVec 64) (i : ℕ) :
    (fillMask hi step n v mask).getLsbD i ↔
      mask.getLsbD i = true ∨ (∃ k, i = v + k * step) ∧ i ≤ hi := by
  induction n generalizing v mask with
  | zero =>
    have hempty : ¬ ((∃ k, i = v + k * step) ∧ i ≤ hi) := by
      rintro ⟨⟨k, rfl⟩, hle⟩
      omega
    rw [fillMask, or_iff_left hempty]
  | succ n ih =>
    by_cases hv : v ≤ hi
    · have hmod : (v + step) % 2 ^ 32 = v + step := Nat.mod_eq_of_lt (by omega)
      have hset : (i = v ∨ (∃ k, i = v + step + k * step) ∧ i ≤ hi) ↔
          (∃ k, i = v + k * step) ∧ i ≤ hi := by
        constructor
        · rintro (rfl | ⟨⟨k, rfl⟩, hle⟩)
          · exact ⟨⟨0, by simp⟩, hv⟩
          · exact ⟨⟨k + 1, by ring⟩, hle⟩
        · rintro ⟨⟨_ | k, rfl⟩, hle⟩
          · exact .inl (by simp)
          · exact .inr ⟨⟨k, by ring⟩, hle⟩
      rw [fillMask, if_pos hv, hmod, ih (by omega), getLsbD_or_shiftLeft mask (by omega), or_assoc,
        hset]
    · have hempty : ¬ ((∃ k, i = v + k * step) ∧ i ≤ hi) := by
        rintro ⟨⟨k, rfl⟩, hle⟩
        omega
      rw [fillMask_of_lt (by omega), or_iff_left hempty]

/-- The bits that the loop sets if the addition wraps around: it goes down by `2 ^ 32 - step`. -/
theorem getLsbD_fillMask_down (hhi : hi < 64) (hstep : step < 2 ^ 32)
    (hwrap : 2 ^ 32 ≤ hi + step) (hn : v < n) (hv : v ≤ hi) (mask : BitVec 64) (i : ℕ) :
    (fillMask hi step n v mask).getLsbD i ↔
      mask.getLsbD i = true ∨ i ≤ v ∧ 2 ^ 32 - step ∣ v - i := by
  induction n generalizing v mask with
  | zero => omega
  | succ n ih =>
    rw [fillMask, if_pos hv]
    by_cases hback : v + step < 2 ^ 32
    · -- The sum is above `hi`: the loop ends.
      have hset : i = v ↔ i ≤ v ∧ 2 ^ 32 - step ∣ v - i := by
        constructor
        · rintro rfl
          exact ⟨le_rfl, by simp⟩
        · rintro ⟨hle, hdvd⟩
          have := Nat.eq_zero_of_dvd_of_lt hdvd (by omega)
          omega
      rw [Nat.mod_eq_of_lt hback, fillMask_of_lt (by omega),
        getLsbD_or_shiftLeft mask (by omega), hset]
    · have hmod : (v + step) % 2 ^ 32 = v - (2 ^ 32 - step) := by omega
      have hset : (i = v ∨ i ≤ v - (2 ^ 32 - step) ∧ 2 ^ 32 - step ∣ v - (2 ^ 32 - step) - i) ↔
          i ≤ v ∧ 2 ^ 32 - step ∣ v - i := by
        constructor
        · rintro (rfl | ⟨hle, hdvd⟩)
          · exact ⟨le_rfl, by simp⟩
          · refine ⟨by omega, ?_⟩
            rw [show v - i = v - (2 ^ 32 - step) - i + (2 ^ 32 - step) by omega]
            exact Nat.dvd_add hdvd dvd_rfl
        · rintro ⟨hle, hdvd⟩
          rcases Nat.eq_zero_or_pos (v - i) with h0 | hpos
          · exact .inl (by omega)
          · have := Nat.le_of_dvd hpos hdvd
            refine .inr ⟨by omega, ?_⟩
            rw [show v - (2 ^ 32 - step) - i = v - i - (2 ^ 32 - step) by omega]
            exact Nat.dvd_sub hdvd dvd_rfl
      rw [hmod, ih (by omega) (by omega), getLsbD_or_shiftLeft mask (by omega), or_assoc, hset]

/-- **The bits that the loop sets.** -/
theorem getLsbD_fill (hmax : max < 64) (hs : s.Within min max) (mask : BitVec 64) (i : ℕ) :
    (s.fill mask).getLsbD i ↔ mask.getLsbD i = true ∨ s.Denotes i ∨ s.Wraps i := by
  obtain ⟨hmin, hle, hmax', hpos, hlt⟩ := hs
  unfold CronSpan.Denotes CronSpan.Wraps
  by_cases hwrap : s.hi + s.step < 2 ^ 32
  · have hnone : ¬ (2 ^ 32 ≤ s.lo + s.step ∧ i < s.lo ∧ 2 ^ 32 - s.step ∣ s.lo - i) := by omega
    rw [CronSpan.fill, getLsbD_fillMask_up (by omega) hpos hwrap (by omega), or_iff_left hnone]
  · rw [CronSpan.fill, getLsbD_fillMask_down (by omega) hlt (by omega) (by omega) hle]
    refine or_congr_right ⟨?_, ?_⟩
    · rintro ⟨hile, hdvd⟩
      rcases hile.eq_or_lt with rfl | hilt
      · exact .inl ⟨⟨0, by simp⟩, hle⟩
      · have := Nat.le_of_dvd (by omega) hdvd
        exact .inr ⟨by omega, hilt, hdvd⟩
    · rintro (⟨⟨k, rfl⟩, hile⟩ | ⟨-, hilt, hdvd⟩)
      · -- Only the first value is below the step.
        obtain rfl : k = 0 := by
          by_contra hk
          have := Nat.le_mul_of_pos_left s.step (Nat.pos_of_ne_zero hk)
          omega
        exact ⟨by omega, by simp⟩
      · exact ⟨hilt.le, hdvd⟩

theorem getLsbD_foldl_fill (hmax : max < 64)
    (hspans : ∀ s ∈ spans, s.Within min max) (mask : BitVec 64) (i : ℕ) :
    (spans.foldl CronSpan.fill mask).getLsbD i ↔
      mask.getLsbD i = true ∨ ∃ s ∈ spans, s.Denotes i ∨ s.Wraps i := by
  induction spans generalizing mask with
  | nil => simp
  | cons s spans ih =>
    obtain ⟨hs, hspans⟩ := forall_mem_cons.1 hspans
    rw [foldl_cons, ih hspans, getLsbD_fill hmax hs, or_assoc]
    simp only [mem_cons, exists_eq_or_imp]

/-! ### Fields -/

/-- What the source takes for a star. -/
def IsStar (field : List Char) : Prop := field = ['*'] ∨ (['*', '/'] <+: field ∧ ',' ∉ field)

instance (field : List Char) : Decidable (IsStar field) := inferInstanceAs (Decidable (_ ∨ _))

theorem Reads.ne_nil (h : Reads field min max spans) : spans ≠ [] := by
  rintro rfl
  cases hparts : field.splitOn ',' with
  | nil => exact splitOn_ne_nil ',' field hparts
  | cons part parts =>
    have := h.1
    rw [hparts] at this
    cases this

theorem Reads.exists_part (h : Reads field min max spans) (hs : s ∈ spans) :
    ∃ part ∈ field.splitOn ',', Spells min max part s := by
  obtain ⟨hspells, -⟩ := h
  generalize field.splitOn ',' = parts at hspells
  induction hspells with
  | nil => cases hs
  | cons hpart _ ih =>
    rcases mem_cons.1 hs with rfl | hs
    · exact ⟨_, mem_cons_self, hpart⟩
    · obtain ⟨part, hmem, hspells⟩ := ih hs
      exact ⟨part, mem_cons_of_mem _ hmem, hspells⟩

theorem foldl_fill_ne_zero (hmax : max < 64) (h : Reads field min max spans) :
    spans.foldl CronSpan.fill 0 ≠ 0 := by
  obtain ⟨s, hs⟩ := exists_mem_of_ne_nil spans h.ne_nil
  have hbit := (getLsbD_foldl_fill hmax h.2 0 s.lo).2
    (.inr ⟨s, hs, .inl ⟨⟨0, by simp⟩, (h.2 s hs).lo_le⟩⟩)
  intro hzero
  rw [hzero] at hbit
  simp at hbit

/-- **A field is accepted if and only if it spells parts within the bounds.** -/
theorem parseField_eq_ok_iff (hmax : max < 64) {star : Bool} :
    parseField field min max = .ok (mask, star) ↔
      ∃ spans, Reads field min max spans ∧ mask = spans.foldl CronSpan.fill 0 ∧
        star = decide (IsStar field) := by
  have hmax32 : max < 2 ^ 32 := by omega
  constructor
  · intro h
    obtain ⟨m, hm, h⟩ := bind_eq_ok.1 h
    obtain ⟨spans, hspans, hall, rfl⟩ := (foldlM_parsePart_eq_ok_iff hmax32).1 hm
    split_ifs at h with hzero
    · cases h
    · cases h
      exact ⟨spans, ⟨hspans, hall⟩, rfl, rfl⟩
  · rintro ⟨spans, hreads, rfl, rfl⟩
    refine bind_eq_ok.2 ⟨spans.foldl CronSpan.fill 0, ?_, if_neg (foldl_fill_ne_zero hmax hreads)⟩
    exact (foldlM_parsePart_eq_ok_iff hmax32).2 ⟨spans, hreads.1, hreads.2, rfl⟩

theorem parse_eq_ok_iff {text : String} {minute hour dom month dow : List Char}
    (htext : splitWhitespace text.toList = [minute, hour, dom, month, dow]) {e : CronExpr} :
    CronExpr.parse text = .ok e ↔
      ∃ p q r t u, parseField minute 0 59 = .ok p ∧ parseField hour 0 23 = .ok q ∧
        parseField dom 1 31 = .ok r ∧ parseField month 1 12 = .ok t ∧
        parseField (zeroed '7' dow) 0 6 = .ok u ∧
        e = ⟨p.1, q.1.setWidth 32, r.1.setWidth 32, t.1.setWidth 16, u.1.setWidth 8, r.2, u.2⟩ := by
  unfold CronExpr.parse
  rw [htext]
  simp only [bind_eq_ok]
  constructor
  · rintro ⟨p, hp, q, hq, r, hr, t, ht, u, hu, he⟩
    exact ⟨p, q, r, t, u, hp, hq, hr, ht, hu, (Except.ok.inj he).symm⟩
  · rintro ⟨p, q, r, t, u, hp, hq, hr, ht, hu, rfl⟩
    exact ⟨p, hp, q, hq, r, hr, t, ht, u, hu, rfl⟩

/-- The field is accepted if it spells parts within the bounds, with the mask of their values, and
rejected otherwise. -/
def ReadsRight (field : List Char) (min max : ℕ) : Prop :=
  (∀ spans, Reads field min max spans → ∃ mask star, parseField field min max = .ok (mask, star) ∧
    ∀ v, (mask.getLsbD v ↔ ∃ s ∈ spans, s.Denotes v) ∧
      (mask.getLsbD v → min ≤ v ∧ v ≤ max)) ∧
  ((¬ ∃ spans, Reads field min max spans) → ∃ e, parseField field min max = .error e)

theorem CronSpan.Denotes.mem (h : s.Denotes v) (hs : s.Within min max) : min ≤ v ∧ v ≤ max := by
  obtain ⟨⟨k, rfl⟩, hle⟩ := h
  exact ⟨hs.min_le.trans (Nat.le_add_right _ _), hle.trans hs.le_max⟩

/-- **A field is read right if and only if every value to which a wrapped addition leads back is a
value of the field anyway.** -/
theorem readsRight_iff {field : List Char} {min max : ℕ} (hmax : max < 64) :
    ReadsRight field min max ↔ ∀ spans, Reads field min max spans →
      ∀ s ∈ spans, ∀ v, s.Wraps v → ∃ t ∈ spans, t.Denotes v := by
  constructor
  · intro h spans hreads s hs v hwraps
    obtain ⟨mask, star, hok, hbits⟩ := h.1 spans hreads
    obtain ⟨hmask, -⟩ : mask = spans.foldl CronSpan.fill 0 ∧ star = decide (IsStar field) := by
      have hok' := (parseField_eq_ok_iff hmax).2 ⟨spans, hreads, rfl, rfl⟩
      rw [hok] at hok'
      exact Prod.mk.inj (Except.ok.inj hok')
    refine (hbits v).1.1 ?_
    rw [hmask, getLsbD_foldl_fill hmax hreads.2]
    exact .inr ⟨s, hs, .inr hwraps⟩
  · intro h
    refine ⟨fun spans hreads => ?_, fun hnone => ?_⟩
    · have hbits : ∀ v, (spans.foldl CronSpan.fill 0).getLsbD v ↔
          ∃ s ∈ spans, s.Denotes v := by
        intro v
        rw [getLsbD_foldl_fill hmax hreads.2]
        constructor
        · rintro (hv | ⟨s, hs, hd | hw⟩)
          · simp at hv
          · exact ⟨s, hs, hd⟩
          · exact h spans hreads s hs v hw
        · rintro ⟨s, hs, hd⟩
          exact .inr ⟨s, hs, .inl hd⟩
      refine ⟨_, _, (parseField_eq_ok_iff hmax).2 ⟨spans, hreads, rfl, rfl⟩, fun v =>
        ⟨hbits v, fun hv => ?_⟩⟩
      obtain ⟨s, hs, hd⟩ := (hbits v).1 hv
      exact hd.mem (hreads.2 s hs)
    · cases hparse : parseField field min max with
      | error e => exact ⟨e, rfl⟩
      | ok p =>
        obtain ⟨mask, star⟩ := p
        obtain ⟨spans, hreads, -⟩ := (parseField_eq_ok_iff hmax).1 hparse
        exact absurd ⟨spans, hreads⟩ hnone

/-- Every fourth minute from 1 to 9. -/
theorem readsRight_step : ReadsRight "1-9/4".toList 0 59 := by
  refine (readsRight_iff (by decide)).2 fun spans hreads s hs v hwraps => ?_
  obtain ⟨part, hpart, hspells⟩ := hreads.exists_part hs
  have hsplit : "1-9/4".toList.splitOn ',' = ["1-9/4".toList] := by decide
  rw [hsplit, mem_singleton] at hpart
  subst hpart
  have hspan : Spells 0 59 "1-9/4".toList ⟨1, 9, 4⟩ :=
    .stepped (r := "1-9".toList) (.between (a := ['1']) (by decide) (by decide)) (by decide)
  rw [hspells.unique hspan] at hwraps
  exact absurd hwraps.1 (by decide)

/-- A step of `2 ^ 32 - 1` from minute 5 leads down to minute 0. -/
theorem not_readsRight_wrapped : ¬ ReadsRight "5/4294967295".toList 0 59 := by
  intro h
  have hreads : Reads "5/4294967295".toList 0 59 [⟨5, 5, 4294967295⟩] := by
    refine ⟨.cons (.stepped (r := ['5']) (.value (by decide)) (by decide)) .nil, ?_⟩
    exact forall_mem_singleton.2 ⟨by decide, by decide, by decide, by decide, by decide⟩
  obtain ⟨mask, star, hok, hbits⟩ := h.1 _ hreads
  obtain rfl : mask = 63#64 := by
    have hmask : (parseField "5/4294967295".toList 0 59).toOption.map Prod.fst = some 63#64 := by
      decide +kernel
    rw [hok] at hmask
    exact Option.some.inj hmask
  obtain ⟨s, hs, ⟨k, hk⟩, -⟩ := (hbits 0).1.1 (by decide)
  rw [mem_singleton.1 hs] at hk
  exact absurd hk (by dsimp only; omega)

end RandallFlare
