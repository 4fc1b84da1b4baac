import RandallFlare.Cron.Field

/-!
# Seven for Sunday

`CronExpr::parse` of `rf-core/src/cron.rs` replaces every digit 7 of the day-of-week field by a 0
before it reads the field over 0 to 6.  That is right for the value 7; it turns `1-7` into `1-0`,
`0-7` into `0-0` and `*/7` into `*/0`.

* `SundayAlias`: the weekdays of an accepted field are its values over 0 to 7, modulo 7;
* `Refused`, `Loses`, `Gains`: what the replacement does to a part;
* `sundayAlias_iff` is the result.
-/

namespace RandallFlare

open Text List

open Fallible (bind_eq_ok)

/-- The weekday is one of the values of the part modulo 7. -/
def CronSpan.OnDay (s : CronSpan) (d : ℕ) : Prop := ∃ v, s.Denotes v ∧ v % 7 = d

/-- The expression is accepted, and its weekdays are the values of the parts modulo 7. -/
def SundayAlias (text : String) (spans : List CronSpan) : Prop :=
  ∃ e, CronExpr.parse text = .ok e ∧ ∀ d, e.dow.getLsbD d ↔ ∃ s ∈ spans, s.OnDay d

variable {field : List Char} {spans : List CronSpan} {s : CronSpan} {t : List Char} {n : ℕ}
  {part : List Char} {parts : List (List Char)} {d : ℕ}

/-- A step that is large enough to wrap around has the digit 7. -/
theorem not_wraps_of_zeroed (h : Reads (zeroed '7' field) 0 6 spans) (hs : s ∈ spans) (v : ℕ) :
    ¬ s.Wraps v := by
  rintro ⟨hwrap, -⟩
  have hwithin := h.2 s hs
  obtain ⟨part, hpart, hspells⟩ := h.exists_part hs
  have hseven : '7' ∉ part := fun hmem => not_mem_zeroed (d := '7') (by decide) field (by
    have hmem' : '7' ∈ [','].intercalate ((zeroed '7' field).splitOn ',') :=
      mem_join_of_mem hpart hmem
    rwa [intercalate_splitOn] at hmem')
  have hlo := hwithin.lo_le.trans hwithin.le_max
  have hstep := hwithin.step_lt
  cases hspells with
  | plain h => dsimp only at hwrap hlo; omega
  | stepped h ht =>
    have hdigit := div_pow_mod_ne (d := '7') (by decide) (by decide)
      (fun hmem => hseven (mem_append_right _ (mem_cons_of_mem _ hmem))) ht 3
    have hvalue : digitValue '7' = 7 := rfl
    dsimp only at hwrap hlo hstep
    omega

/-- The weekdays that are read from the field after the replacement. -/
theorem getLsbD_dow (h : Reads (zeroed '7' field) 0 6 spans) (d : ℕ) :
    ((spans.foldl CronSpan.fill 0).setWidth 8).getLsbD d ↔ ∃ s ∈ spans, s.Denotes d := by
  rw [BitVec.getLsbD_setWidth, Bool.and_eq_true, getLsbD_foldl_fill (by decide) h.2]
  constructor
  · rintro ⟨-, hd | ⟨s, hs, hd | hw⟩⟩
    · simp at hd
    · exact ⟨s, hs, hd⟩
    · exact absurd hw (not_wraps_of_zeroed h hs d)
  · rintro ⟨s, hs, hd⟩
    have := (hd.mem (h.2 s hs)).2
    exact ⟨by simpa using by omega, .inr ⟨s, hs, .inl hd⟩⟩

/-! ### The field with its digits 7 read as 0 -/

/-- The step of a part, with its digits 7 read as 0. -/
def zeroedStep (part : List Char) : ℕ :=
  match splitOnce '/' part with
  | some (_, t) => (parseDecimal (zeroed '7' t)).getD 0
  | none => 1

/-- A part with its digits 7 read as 0; a star ends at 6. -/
def zeroedSpan (part : List Char) (s : CronSpan) : CronSpan :=
  ⟨if part.head? = some '*' then 0 else s.lo % 7, if part.head? = some '*' then 6 else s.hi % 7,
    zeroedStep part⟩

theorem parseDecimal_zeroed_of_le (h : parseDecimal t = some n)
    (hn : n ≤ 7) : parseDecimal (zeroed '7' t) = some (n % 7) := by
  obtain ⟨m, hm, hsmall⟩ := parseDecimal_zeroed (d := '7') (by decide) h
  have hvalue : digitValue '7' = 7 := rfl
  rw [hm, hsmall (by omega), hvalue]
  split_ifs <;> congr 1 <;> omega

theorem head_ne_of_parseDecimal (h : parseDecimal t = some n)
    (l : List Char) : (t ++ l).head? ≠ some '*' := by
  cases t with
  | nil => cases h
  | cons c t =>
    have hc : '*' ∉ c :: t := not_mem_of_parseDecimal h (by decide) (by decide)
    rw [cons_append, head?_cons, ne_eq, Option.some.injEq]
    rintro rfl
    exact hc mem_cons_self

/-- What the range of a part spells after the replacement, whatever follows it. -/
theorem spellsRange_zeroed {r : List Char} {lo hi : ℕ} (h : SpellsRange 0 7 r lo hi) (hlo : lo ≤ 7)
    (hhi : hi ≤ 7) (l : List Char) :
    SpellsRange 0 6 (zeroed '7' r) (if (r ++ l).head? = some '*' then 0 else lo % 7)
      (if (r ++ l).head? = some '*' then 6 else hi % 7) := by
  cases h with
  | star => exact .star
  | value h =>
    have hhead := head_ne_of_parseDecimal h l
    rw [if_neg hhead, if_neg hhead]
    exact .value (parseDecimal_zeroed_of_le h hlo)
  | between ha hb =>
    have hhead := head_ne_of_parseDecimal ha
    rw [append_assoc, if_neg (hhead _), if_neg (hhead _), zeroed_append,
      zeroed_cons_of_ne (by decide)]
    exact .between (parseDecimal_zeroed_of_le ha hlo) (parseDecimal_zeroed_of_le hb hhi)

theorem spells_zeroed (h : Spells 0 7 part s) (hlo : s.lo ≤ 7)
    (hhi : s.hi ≤ 7) : Spells 0 6 (zeroed '7' part) (zeroedSpan part s) := by
  cases h with
  | plain h =>
    have hrange := spellsRange_zeroed h hlo hhi []
    rw [append_nil] at hrange
    have hstep : zeroedStep part = 1 := by
      rw [zeroedStep, splitOnce_eq_none.2 (slash_not_mem h)]
    rw [zeroedSpan, hstep]
    exact .plain hrange
  | @stepped r t lo hi step h ht =>
    obtain ⟨m, hm, -⟩ := parseDecimal_zeroed (d := '7') (by decide) ht
    have hstep : zeroedStep (r ++ '/' :: t) = m := by
      rw [zeroedStep, splitOnce_append (slash_not_mem h)]
      dsimp only
      rw [hm, Option.getD_some]
    rw [zeroedSpan, hstep, zeroed_append, zeroed_cons_of_ne (by decide)]
    exact .stepped (spellsRange_zeroed h hlo hhi _) hm

/-- The parts of a field with their digits 7 read as 0. -/
def zeroedSpans (parts : List (List Char)) (spans : List CronSpan) : List CronSpan :=
  (parts.zip spans).map fun x => zeroedSpan x.1 x.2

theorem forall₂_spells_zeroed
    (h : Forall₂ (Spells 0 7) parts spans) (hspans : ∀ s ∈ spans, s.lo ≤ s.hi ∧ s.hi ≤ 7) :
    Forall₂ (Spells 0 6) (parts.map (zeroed '7')) (zeroedSpans parts spans) := by
  induction h with
  | nil => exact .nil
  | cons hpart _ ih =>
    obtain ⟨⟨hle, hhi⟩, hspans⟩ := forall_mem_cons.1 hspans
    exact .cons (spells_zeroed hpart (hle.trans hhi) hhi) (ih hspans)

/-- The part is refused after the replacement: it is a range that ends at 7 and begins at 1 to 6, or
its step becomes 0 or stays beyond 32 bits. -/
def Refused (part : List Char) (s : CronSpan) : Prop :=
  (0 < s.lo ∧ s.lo < 7 ∧ s.hi = 7) ∨ zeroedStep part = 0 ∨ 2 ^ 32 ≤ zeroedStep part

theorem Spells.of_star (h : Spells 0 7 part s) (hstar : part.head? = some '*') :
    s.lo = 0 ∧ s.hi = 7 := by
  have hrange : ∀ {r : List Char} {lo hi : ℕ}, SpellsRange 0 7 r lo hi → ∀ l,
      (r ++ l).head? = some '*' → lo = 0 ∧ hi = 7 := by
    intro r lo hi h l hstar
    cases h with
    | star => exact ⟨rfl, rfl⟩
    | value h => exact absurd hstar (head_ne_of_parseDecimal h l)
    | between ha hb =>
      rw [append_assoc] at hstar
      exact absurd hstar (head_ne_of_parseDecimal ha _)
  cases h with
  | plain h => exact hrange h [] (by rwa [append_nil])
  | stepped h ht => exact hrange h _ hstar

theorem Spells.zeroedStep_of_lt (h : Spells 0 7 part s) (hstep : s.step < 7) :
    zeroedStep part = s.step := by
  cases h with
  | plain h => rw [zeroedStep, splitOnce_eq_none.2 (slash_not_mem h)]
  | stepped h ht =>
    dsimp only at hstep ⊢
    rw [zeroedStep, splitOnce_append (slash_not_mem h)]
    dsimp only
    rw [parseDecimal_zeroed_of_le ht hstep.le, Option.getD_some, Nat.mod_eq_of_lt hstep]

theorem within_zeroedSpan_iff (h : Spells 0 7 part s) (hle : s.lo ≤ s.hi) (hhi : s.hi ≤ 7) :
    (zeroedSpan part s).Within 0 6 ↔ ¬ Refused part s := by
  unfold Refused zeroedSpan
  by_cases hstar : part.head? = some '*'
  · obtain ⟨hlo, hhi⟩ := h.of_star hstar
    simp only [if_pos hstar]
    constructor
    · rintro ⟨-, -, -, hpos, hlt⟩
      dsimp only at hpos hlt
      omega
    · intro hok
      exact ⟨le_rfl, Nat.zero_le 6, le_rfl, by dsimp only; omega, by dsimp only; omega⟩
  · simp only [if_neg hstar]
    constructor
    · rintro ⟨-, horder, -, hpos, hlt⟩
      dsimp only at horder hpos hlt
      omega
    · intro hok
      constructor <;> dsimp only <;> omega

theorem forall_within_zeroed_iff (h : Forall₂ (Spells 0 7) parts spans)
    (hspans : ∀ s ∈ spans, s.lo ≤ s.hi ∧ s.hi ≤ 7) :
    (∀ s ∈ zeroedSpans parts spans, s.Within 0 6) ↔
      Forall₂ (fun part s => ¬ Refused part s) parts spans := by
  induction h with
  | nil => simp [zeroedSpans]
  | cons hpart _ ih =>
    obtain ⟨⟨hle, hhi⟩, hspans⟩ := forall_mem_cons.1 hspans
    rw [zeroedSpans, zip_cons_cons, map_cons, forall_mem_cons, forall₂_cons,
      within_zeroedSpan_iff hpart hle hhi, ← ih hspans]
    rfl

/-- The replaced field is accepted with these parts and no others. -/
theorem reads_zeroed_iff {zeroed : List CronSpan}
    (h : Forall₂ (Spells 0 7) (field.splitOn ',') spans)
    (hspans : ∀ s ∈ spans, s.lo ≤ s.hi ∧ s.hi ≤ 7) :
    Reads (Text.zeroed '7' field) 0 6 zeroed ↔ zeroed = zeroedSpans (field.splitOn ',') spans ∧
      Forall₂ (fun part s => ¬ Refused part s) (field.splitOn ',') spans := by
  have hspells := forall₂_spells_zeroed h hspans
  unfold Reads
  rw [splitOn_zeroed (by decide) (by decide), ← forall_within_zeroed_iff h hspans]
  constructor
  · rintro ⟨hzeroed, hwithin⟩
    obtain rfl := right_unique_forall₂' (R := Spells 0 6) (fun _ _ _ hs hs' => hs.unique hs')
      hzeroed hspells
    exact ⟨rfl, hwithin⟩
  · rintro ⟨rfl, hwithin⟩
    exact ⟨hspells, hwithin⟩

/-! ### The weekdays after the replacement -/

/-- The range from 0 to 7 becomes that from 0 to 0. -/
def Shrinks (part : List Char) (s : CronSpan) : Prop :=
  part.head? ≠ some '*' ∧ s.lo = 0 ∧ s.hi = 7

/-- The part loses the day. -/
def Loses (part : List Char) (s : CronSpan) (d : ℕ) : Prop :=
  Shrinks part s ∧ 0 < d ∧ d < 7 ∧ s.step ∣ d

/-- The step leads beyond the part, and with its digits 7 read as 0 it leads to the day. -/
def Gains (part : List Char) (s : CronSpan) (d : ℕ) : Prop :=
  ¬ Shrinks part s ∧ 7 ≤ s.step ∧ s.lo < d ∧ d ≤ s.hi ∧ d < 7 ∧ zeroedStep part ∣ d - s.lo

theorem CronSpan.denotes_iff {v : ℕ} :
    s.Denotes v ↔ s.lo ≤ v ∧ v ≤ s.hi ∧ s.step ∣ v - s.lo := by
  constructor
  · rintro ⟨⟨k, rfl⟩, hle⟩
    exact ⟨Nat.le_add_right _ _, hle, by simp⟩
  · rintro ⟨hlo, hle, k, hk⟩
    refine ⟨⟨k, ?_⟩, hle⟩
    rw [mul_comm k, ← hk]
    omega

/-- The value 7 is the same weekday as 0. -/
theorem CronSpan.onDay_iff (h : s.hi < 7 ∨ s.lo = 0 ∧ s.hi = 7) :
    s.OnDay d ↔ d < 7 ∧ s.lo ≤ d ∧ d ≤ s.hi ∧ s.step ∣ d - s.lo := by
  rw [← CronSpan.denotes_iff]
  constructor
  · rintro ⟨v, hv, rfl⟩
    have hle := hv.2
    by_cases hlt : v < 7
    · rw [Nat.mod_eq_of_lt hlt]
      exact ⟨hlt, hv⟩
    · obtain ⟨hlo, hhi⟩ : s.lo = 0 ∧ s.hi = 7 := by omega
      obtain rfl : v = 7 := by omega
      exact ⟨by decide, CronSpan.denotes_iff.2 (by simp [hlo])⟩
  · rintro ⟨hd, hdenotes⟩
    exact ⟨d, hdenotes, Nat.mod_eq_of_lt hd⟩

/-- A star or a range below 7 stays, and only its step may change. -/
theorem denotes_zeroedSpan_kept (h : Spells 0 7 part s) (hle : s.lo ≤ s.hi)
    (hkeep : ¬ Shrinks part s) (hweek : s.hi < 7 ∨ s.lo = 0 ∧ s.hi = 7) :
    (zeroedSpan part s).Denotes d ↔ Gains part s d ∨ ¬ Loses part s d ∧ s.OnDay d := by
  have hzeroed : (zeroedSpan part s).Denotes d ↔
      d < 7 ∧ s.lo ≤ d ∧ d ≤ s.hi ∧ zeroedStep part ∣ d - s.lo := by
    rw [CronSpan.denotes_iff, zeroedSpan]
    by_cases hstar : part.head? = some '*'
    · obtain ⟨hlo, hhi⟩ := h.of_star hstar
      simp only [if_pos hstar, hlo, hhi]
      constructor
      · rintro ⟨-, hd, hdvd⟩
        exact ⟨by omega, Nat.zero_le d, by omega, hdvd⟩
      · rintro ⟨hd, -, -, hdvd⟩
        exact ⟨Nat.zero_le d, by omega, hdvd⟩
    · have hhi : s.hi < 7 := hweek.resolve_right fun hw => hkeep ⟨hstar, hw⟩
      rw [if_neg hstar, if_neg hstar, Nat.mod_eq_of_lt hhi, Nat.mod_eq_of_lt (hle.trans_lt hhi)]
      exact ⟨fun hd => ⟨hd.2.1.trans_lt hhi, hd⟩, And.right⟩
  have hlose : ¬ Loses part s d := fun hlost => hkeep hlost.1
  rw [hzeroed, CronSpan.onDay_iff hweek]
  by_cases hstep : s.step < 7
  · have hgain : ¬ Gains part s d := fun hgain => absurd hgain.2.1 (not_le.2 hstep)
    rw [h.zeroedStep_of_lt hstep]
    simp only [hgain, hlose, false_or, not_false_eq_true, true_and]
  · constructor
    · rintro ⟨hd, hlo, hhi, hdvd⟩
      obtain rfl | hpos := hlo.eq_or_lt
      · exact .inr ⟨hlose, hd, le_rfl, hhi, by simp⟩
      · exact .inl ⟨hkeep, not_lt.1 hstep, hpos, hhi, hd, hdvd⟩
    · rintro (⟨-, -, hlo, hhi, hd, hdvd⟩ | ⟨-, hd, hlo, hhi, hdvd⟩)
      · exact ⟨hd, hlo.le, hhi, hdvd⟩
      · -- A step from 7 on leads nowhere within the week.
        have hzero : d - s.lo = 0 := Nat.eq_zero_of_dvd_of_lt hdvd (by omega)
        exact ⟨hd, hlo, hhi, by rw [hzero]; exact dvd_zero _⟩

/-- The value 7 becomes 0, and so does the range from 0 to 7. -/
theorem denotes_zeroedSpan_seven (hstar : part.head? ≠ some '*') (hhi : s.hi = 7)
    (hlo : s.lo = 7 ∨ s.lo = 0) :
    (zeroedSpan part s).Denotes d ↔ Gains part s d ∨ ¬ Loses part s d ∧ s.OnDay d := by
  have hzeroed : (zeroedSpan part s).Denotes d ↔ d = 0 := by
    have hmod : s.lo % 7 = 0 := by omega
    rw [CronSpan.denotes_iff, zeroedSpan, if_neg hstar, if_neg hstar, hhi, hmod]
    constructor
    · exact fun hd => Nat.le_zero.1 hd.2.1
    · rintro rfl
      exact ⟨le_rfl, le_rfl, dvd_zero _⟩
  rw [hzeroed]
  unfold Gains Loses
  rcases hlo with hlo | hlo
  · constructor
    · rintro rfl
      exact .inr ⟨by omega, 7, CronSpan.denotes_iff.2 (by simp [hlo, hhi]), rfl⟩
    · rintro (⟨-, -, hd, -, hd', -⟩ | ⟨-, v, hv, rfl⟩)
      · omega
      · rw [CronSpan.denotes_iff] at hv
        omega
  · rw [CronSpan.onDay_iff (.inr ⟨hlo, hhi⟩), hlo, Nat.sub_zero]
    constructor
    · rintro rfl
      exact .inr ⟨by omega, by decide, le_rfl, Nat.zero_le _, dvd_zero _⟩
    · rintro (⟨hkeep, -⟩ | ⟨hkept, hd, -, -, hdvd⟩)
      · exact absurd ⟨hstar, hlo, hhi⟩ hkeep
      · by_contra hpos
        exact hkept ⟨⟨hstar, hlo, hhi⟩, Nat.pos_of_ne_zero hpos, hd, hdvd⟩

/-- **The weekdays of a part after the replacement**: those it gains, and its own but for those it
loses. -/
theorem denotes_zeroedSpan_iff (h : Spells 0 7 part s) (hle : s.lo ≤ s.hi) (hhi : s.hi ≤ 7)
    (hok : ¬ Refused part s) : (zeroedSpan part s).Denotes d ↔
      Gains part s d ∨ ¬ Loses part s d ∧ s.OnDay d := by
  unfold Refused at hok
  by_cases hkeep : s.lo = 7 ∨ Shrinks part s
  · have hstar : part.head? ≠ some '*' := by
      rintro hstar
      have := h.of_star hstar
      exact hkeep.elim (by omega) fun hs => hs.1 hstar
    have := hkeep.imp_right fun hs => hs.2
    exact denotes_zeroedSpan_seven hstar (by omega) (by omega)
  · obtain ⟨hlo, hkeep⟩ := not_or.1 hkeep
    exact denotes_zeroedSpan_kept h hle hkeep (by omega)

theorem Loses.onDay (h : Loses part s d) : s.OnDay d := by
  obtain ⟨⟨-, hlo, hhi⟩, -, hd, hdvd⟩ := h
  rw [CronSpan.onDay_iff (.inr ⟨hlo, hhi⟩), hlo]
  exact ⟨hd, Nat.zero_le d, by omega, hdvd⟩

/-- On this weekday the replacement does no harm to a field: a day that a part loses is a day of
another part or is gained, and a day that a part gains is one of the field. -/
structure HarmlessOn (parts : List (List Char)) (spans : List CronSpan) (d : ℕ) : Prop where
  lost : (∃ x ∈ parts.zip spans, Loses x.1 x.2 d) →
    ∃ x ∈ parts.zip spans, Gains x.1 x.2 d ∨ ¬ Loses x.1 x.2 d ∧ x.2.OnDay d
  gained : (∃ x ∈ parts.zip spans, Gains x.1 x.2 d) → ∃ s ∈ spans, s.OnDay d

theorem forall₂_mem_zip {R : List Char → CronSpan → Prop} (h : Forall₂ R parts spans) :
    ∀ x ∈ parts.zip spans, R x.1 x.2 := by
  rintro ⟨part, s⟩ hx
  exact (forall₂_iff_zip.1 h).2 hx

theorem exists_mem_zip (h : Forall₂ (Spells 0 7) parts spans) {P : CronSpan → Prop} :
    (∃ x ∈ parts.zip spans, P x.2) ↔ ∃ s ∈ spans, P s := by
  have hsnd : (parts.zip spans).map Prod.snd = spans := map_snd_zip h.length_eq.ge
  constructor
  · rintro ⟨x, hx, hP⟩
    exact ⟨x.2, hsnd ▸ mem_map_of_mem hx, hP⟩
  · rintro ⟨s, hs, hP⟩
    rw [← hsnd] at hs
    obtain ⟨x, hx, rfl⟩ := mem_map.1 hs
    exact ⟨x, hx, hP⟩

/-- The weekday is read as it is meant exactly if the replacement does it no harm. -/
theorem harmlessOn_iff (h : Forall₂ (Spells 0 7) parts spans)
    (hspans : ∀ s ∈ spans, s.lo ≤ s.hi ∧ s.hi ≤ 7)
    (hok : Forall₂ (fun part s => ¬ Refused part s) parts spans) :
    ((∃ s ∈ zeroedSpans parts spans, s.Denotes d) ↔ ∃ s ∈ spans, s.OnDay d) ↔
      HarmlessOn parts spans d := by
  have hzeroed : (∃ s ∈ zeroedSpans parts spans, s.Denotes d) ↔
      ∃ x ∈ parts.zip spans, Gains x.1 x.2 d ∨ ¬ Loses x.1 x.2 d ∧ x.2.OnDay d := by
    simp only [zeroedSpans, mem_map, exists_exists_and_eq_and]
    refine exists_congr fun x => and_congr_right fun hx => ?_
    obtain ⟨hle, hhi⟩ := hspans x.2 (of_mem_zip hx).2
    exact denotes_zeroedSpan_iff (forall₂_mem_zip h x hx) hle hhi (forall₂_mem_zip hok x hx)
  rw [hzeroed]
  constructor
  · intro hiff
    refine ⟨fun ⟨x, hx, hlost⟩ => hiff.2 ⟨x.2, (of_mem_zip hx).2, hlost.onDay⟩, ?_⟩
    rintro ⟨x, hx, hgain⟩
    exact hiff.1 ⟨x, hx, .inl hgain⟩
  · rintro ⟨hlost, hgained⟩
    constructor
    · rintro ⟨x, hx, hgain | ⟨-, hday⟩⟩
      · exact hgained ⟨x, hx, hgain⟩
      · exact ⟨x.2, (of_mem_zip hx).2, hday⟩
    · intro hday
      obtain ⟨x, hx, hday⟩ := (exists_mem_zip h).2 hday
      by_cases hlose : Loses x.1 x.2 d
      · exact hlost ⟨x, hx, hlose⟩
      · exact ⟨x, hx, .inr ⟨hlose, hday⟩⟩

/-- **Seven stands for Sunday in a field if and only if none of its parts is refused after the
replacement and the replacement does no harm on any weekday.** -/
theorem sundayAlias_iff {text : String} {minute hour dom month dow : List Char}
    (htext : splitWhitespace text.toList = [minute, hour, dom, month, dow])
    (hminute : ∃ p, parseField minute 0 59 = .ok p) (hhour : ∃ p, parseField hour 0 23 = .ok p)
    (hdom : ∃ p, parseField dom 1 31 = .ok p) (hmonth : ∃ p, parseField month 1 12 = .ok p)
    {spans : List CronSpan} (hspells : Forall₂ (Spells 0 7) (dow.splitOn ',') spans)
    (hspans : ∀ s ∈ spans, s.lo ≤ s.hi ∧ s.hi ≤ 7) :
    SundayAlias text spans ↔
      Forall₂ (fun part s => ¬ Refused part s) (dow.splitOn ',') spans ∧
        ∀ d, HarmlessOn (dow.splitOn ',') spans d := by
  have hreads := fun zeroed : List CronSpan =>
    show Reads (Text.zeroed '7' dow) 0 6 zeroed ↔ _ from reads_zeroed_iff hspells hspans
  constructor
  · rintro ⟨e, he, hdays⟩
    obtain ⟨p, q, r, t, ⟨mask, star⟩, -, -, -, -, hu, rfl⟩ := (parse_eq_ok_iff htext).1 he
    obtain ⟨zeroed, hzeroed, rfl, -⟩ := (parseField_eq_ok_iff (by decide)).1 hu
    obtain ⟨rfl, hok⟩ := (hreads zeroed).1 hzeroed
    refine ⟨hok, fun d => (harmlessOn_iff hspells hspans hok).1 ?_⟩
    exact (getLsbD_dow hzeroed d).symm.trans (hdays d)
  · rintro ⟨hok, hdays⟩
    have hzeroed := (hreads _).2 ⟨rfl, hok⟩
    obtain ⟨p, hp⟩ := hminute
    obtain ⟨q, hq⟩ := hhour
    obtain ⟨r, hr⟩ := hdom
    obtain ⟨t, ht⟩ := hmonth
    have hu := (parseField_eq_ok_iff (by decide)).2 ⟨_, hzeroed, rfl, rfl⟩
    exact ⟨_, (parse_eq_ok_iff htext).2 ⟨p, q, r, t, _, hp, hq, hr, ht, hu, rfl⟩, fun d =>
      (getLsbD_dow hzeroed d).trans ((harmlessOn_iff hspells hspans hok).2 (hdays d))⟩

/-- Sunday as 7, and every third day from Monday on. -/
theorem sundayAlias_seven : SundayAlias "0 0 * * 7,1-6/3" [⟨7, 7, 1⟩, ⟨1, 6, 3⟩] := by
  have hspells : Forall₂ (Spells 0 7) ("7,1-6/3".toList.splitOn ',')
      [⟨7, 7, 1⟩, ⟨1, 6, 3⟩] :=
    .cons (.plain (.value (by decide))) (.cons (.stepped (r := "1-6".toList)
      (.between (a := ['1']) (b := ['6']) (by decide) (by decide)) (by decide)) .nil)
  have htext : splitWhitespace "0 0 * * 7,1-6/3".toList =
      [['0'], ['0'], ['*'], ['*'], "7,1-6/3".toList] := by
    decide
  have hsplit : "7,1-6/3".toList.splitOn ',' = [['7'], "1-6/3".toList] := by decide
  refine (sundayAlias_iff htext ⟨(1#64, false), by rfl⟩ ⟨(1#64, false), by rfl⟩
    ⟨(0xfffffffe#64, true), by rfl⟩ ⟨(0x1ffe#64, true), by rfl⟩ hspells (by decide)).2 ?_
  rw [hsplit]
  have hok : ¬ Refused ['7'] ⟨7, 7, 1⟩ ∧ ¬ Refused "1-6/3".toList ⟨1, 6, 3⟩ := by
    unfold Refused
    decide
  refine ⟨.cons hok.1 (.cons hok.2 .nil), fun d => ⟨?_, ?_⟩⟩
  · -- Neither part is the range from 0 to 7, and neither step reaches 7.
    rintro ⟨x, hx, ⟨-, hlo, hhi⟩, -⟩
    fin_cases hx <;> simp at hlo hhi
  · rintro ⟨x, hx, -, hstep, -⟩
    fin_cases hx <;> simp at hstep

/-- The range from Monday to Sunday is refused. -/
theorem not_sundayAlias_range : Forall₂ (Spells 0 7) ("1-7".toList.splitOn ',') [⟨1, 7, 1⟩] ∧
      ¬ SundayAlias "0 0 * * 1-7" [⟨1, 7, 1⟩] := by
  refine ⟨.cons (.plain (.between (a := ['1']) (b := ['7']) (by decide) (by decide))) .nil, ?_⟩
  rintro ⟨e, he, -⟩
  have hparse : (CronExpr.parse "0 0 * * 1-7").toOption = none := by decide +kernel
  rw [he] at hparse
  cases hparse

end RandallFlare
