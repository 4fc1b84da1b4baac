import RandallFlare.Cron.Calendar
import RandallFlare.Cron.Weekdays

/-!
# When an expression fires

`CronExpr::matches` of `rf-core/src/cron.rs`.  A day has to be in the set of the day-of-month field
or of the day-of-week field, and a field that is a star does not count.  The parser takes a star with
a step for a star, so that its step is ignored, and sets more than a field denotes where an addition
wraps around.

* `CronExpr.matchesAt`;
* `Fires`: when the expression is meant to fire;
* `ReadAt`: the fields are read right for the values of a time;
* `matchesAt_iff`: when the expression does fire;
* `firesRight_iff` is the result.
-/

namespace RandallFlare

open Text List

/-- The minute of the hour of a time in seconds. -/
def minuteOf (epochSecs : ℕ) : ℕ := epochSecs / 60 % 60

def hourOf (epochSecs : ℕ) : ℕ := epochSecs / 60 / 60 % 24

def dateOf (epochSecs : ℕ) : ℤ × ℕ × ℕ × ℕ := civil (epochSecs / 60 / 60 / 24 : ℕ)

namespace CronExpr

/-- `matches`: the expression fires in the minute of a time. -/
def matchesAt (e : CronExpr) (epochSecs : ℕ) : Bool :=
  let minute := minuteOf epochSecs
  let hour := hourOf epochSecs
  let (_, month, day, dow) := dateOf epochSecs
  if e.minute &&& (1#64 <<< minute) = 0 then false
  else if e.hour &&& (1#32 <<< hour) = 0 then false
  else if e.month &&& (1#16 <<< month) = 0 then false
  else
    let domHit : Bool := e.dom &&& (1#32 <<< day) ≠ 0
    let dowHit : Bool := e.dow &&& (1#8 <<< dow) ≠ 0
    match e.domStar, e.dowStar with
    | true, true => true
    | false, true => domHit
    | true, false => dowHit
    | false, false => domHit || dowHit

theorem matchesAt_eq_true (e : CronExpr) (t : ℕ) : e.matchesAt t ↔
      (e.minute &&& (1#64 <<< minuteOf t) ≠ 0 ∧ e.hour &&& (1#32 <<< hourOf t) ≠ 0 ∧
        e.month &&& (1#16 <<< (dateOf t).2.1) ≠ 0) ∧
      (e.domStar ∧ e.dowStar ∨ ¬ e.domStar ∧ e.dom &&& (1#32 <<< (dateOf t).2.2.1) ≠ 0 ∨
        ¬ e.dowStar ∧ e.dow &&& (1#8 <<< (dateOf t).2.2.2) ≠ 0) := by
  unfold matchesAt
  obtain ⟨y, month, day, dow⟩ := dateOf t
  dsimp only
  split_ifs with hminute hhour hmonth
  · simp [hminute]
  · simp [hhour]
  · simp [hmonth]
  · rw [and_iff_right ⟨hminute, hhour, hmonth⟩]
    cases e.domStar <;> cases e.dowStar <;> simp

end CronExpr

/-! ### Bits -/

theorem and_shiftLeft_eq_zero {w : ℕ} (x : BitVec w) {i : ℕ} (hi : i < w) :
    x &&& (1#w <<< i) = 0 ↔ x.getLsbD i = false := by
  rw [← BitVec.twoPow_eq, BitVec.and_twoPow]
  have hne : BitVec.twoPow w i ≠ 0 := fun h => by
    have := congrArg BitVec.toNat h
    rw [BitVec.toNat_twoPow_of_lt hi] at this
    simp at this
  cases hx : x.getLsbD i with
  | true => simpa using hne
  | false => simp

/-- The values that a field denotes. -/
def Denoted (field : List Char) (min max v : ℕ) : Prop :=
  ∃ spans, Reads field min max spans ∧ ∃ s ∈ spans, s.Denotes v

/-- The values that a field sets: those it denotes, and those to which a wrapped addition leads
back. -/
def SetBy (field : List Char) (min max v : ℕ) : Prop :=
  ∃ spans, Reads field min max spans ∧ ∃ s ∈ spans, s.Denotes v ∨ s.Wraps v

variable {min max v : ℕ} {field : List Char} {p : BitVec 64 × Bool} {t : ℕ}
  {minute hour month dom dow : List Char}

theorem Denoted.setBy (h : Denoted field min max v) : SetBy field min max v := by
  obtain ⟨spans, hreads, s, hs, hv⟩ := h
  exact ⟨spans, hreads, s, hs, .inl hv⟩

/-- If a wrapped addition leads to the value, the field denotes it anyway. -/
def NoStray (field : List Char) (min max v : ℕ) : Prop :=
  ∀ spans, Reads field min max spans → (∃ s ∈ spans, s.Wraps v) → ∃ s ∈ spans, s.Denotes v

theorem NoStray.setBy_iff (h : NoStray field min max v) :
    SetBy field min max v ↔ Denoted field min max v := by
  refine ⟨?_, Denoted.setBy⟩
  rintro ⟨spans, hreads, s, hs, hv | hv⟩
  · exact ⟨spans, hreads, s, hs, hv⟩
  · exact ⟨spans, hreads, h spans hreads ⟨s, hs, hv⟩⟩

theorem noStray_of_not_mem (hmax : max < 64) (h : '/' ∉ field) : NoStray field min max v := by
  rintro spans hreads ⟨s, hs, hwraps, -⟩
  obtain ⟨part, hpart, hspells⟩ := hreads.exists_part hs
  have hle := (hreads.2 s hs).lo_le.trans (hreads.2 s hs).le_max
  cases hspells with
  | plain _ =>
    dsimp only at hwraps hle
    omega
  | stepped _ _ =>
    have hmem : '/' ∈ [','].intercalate (field.splitOn ',') := mem_join_of_mem hpart (by simp)
    rw [intercalate_splitOn] at hmem
    exact absurd hmem h

theorem getLsbD_iff_setBy (hmax : max < 64) (h : parseField field min max = .ok p) (v : ℕ) :
    p.1.getLsbD v ↔ SetBy field min max v := by
  obtain ⟨mask, star⟩ := p
  obtain ⟨spans, hreads, rfl, -⟩ := (parseField_eq_ok_iff hmax).1 h
  rw [getLsbD_foldl_fill hmax hreads.2]
  constructor
  · rintro (hv | hs)
    · simp at hv
    · exact ⟨spans, hreads, hs⟩
  · rintro ⟨spans', hreads', hs⟩
    obtain rfl := right_unique_forall₂' (R := Spells min max)
      (fun _ _ _ hs hs' => hs.unique hs') hreads'.1 hreads.1
    exact .inr hs

theorem isStar_of_parseField (hmax : max < 64)
    (h : parseField field min max = .ok p) : p.2 = decide (IsStar field) := by
  obtain ⟨mask, star⟩ := p
  obtain ⟨-, -, -, rfl⟩ := (parseField_eq_ok_iff hmax).1 h
  rfl

theorem eq_zeroed_seven {b c : Char} (hb : b ≠ '7') (hb0 : b ≠ '0') :
    b = (if c = '7' then '0' else c) ↔ b = c := by
  split_ifs with hc
  · rw [hc]
    exact ⟨fun h => absurd h hb0, fun h => absurd h hb⟩
  · rfl

theorem isStar_zeroed (field : List Char) : IsStar (zeroed '7' field) ↔ IsStar field := by
  have hcomma : ',' ∈ zeroed '7' field ↔ ',' ∈ field := by
    simp only [zeroed, mem_map, eq_comm (b := ','),
      eq_zeroed_seven (b := ',') (by decide) (by decide), exists_eq_right']
  have hstar : ∀ c : Char, (if c = '7' then '0' else c) = '*' ↔ c = '*' := fun c => by
    rw [eq_comm, eq_zeroed_seven (by decide) (by decide), eq_comm]
  unfold IsStar
  rw [hcomma]
  rcases field with _ | ⟨b, _ | ⟨c, l⟩⟩
  · rfl
  · simp [zeroed, hstar]
  · simp only [zeroed, map_cons, cons_prefix_cons, nil_prefix, and_true,
      eq_zeroed_seven (b := '*') (by decide) (by decide),
      eq_zeroed_seven (b := '/') (by decide) (by decide), cons.injEq, reduceCtorEq, and_false]

/-! ### Dates -/

theorem dateOf_fits (ht : t < 2 ^ 64) :
    (dateOf t).2.1 < 16 ∧ (dateOf t).2.2.1 < 32 ∧ (dateOf t).2.2.2 ≤ 6 := by
  obtain ⟨y, doy, hdoy0, hdoy, -, hcivil⟩ := civil_eq (n := (t / 60 / 60 / 24 : ℕ)) (by omega)
    (by omega)
  obtain ⟨⟨-, hmonth⟩, -, hday⟩ := Gregorian.month_day_ofMarch hdoy0 hdoy
  rw [dateOf, hcivil]
  exact ⟨hmonth.trans_lt (by decide), hday.trans_lt (by decide), by dsimp only [withWeekday]; omega⟩

/-! ### Firing -/

/-- The minute, the hour and the month are in the sets that their fields denote. -/
def TimeHit (minute hour month : List Char) (t : ℕ) : Prop :=
  Denoted minute 0 59 (minuteOf t) ∧ Denoted hour 0 23 (hourOf t) ∧
    Denoted month 1 12 (dateOf t).2.1

/-- The day of the month is in the set that its field denotes. -/
def DomHit (dom : List Char) (t : ℕ) : Prop := Denoted dom 1 31 (dateOf t).2.2.1

/-- The field of the weekday has these parts, with values from 0 to 7. -/
def ReadsWeek (dow : List Char) (spans : List CronSpan) : Prop :=
  Forall₂ (Spells 0 7) (dow.splitOn ',') spans ∧ ∀ s ∈ spans, s.lo ≤ s.hi ∧ s.hi ≤ 7

/-- The weekday is one of the values from 0 to 7 that its field denotes, modulo 7. -/
def DowHit (dow : List Char) (t : ℕ) : Prop :=
  ∃ spans, ReadsWeek dow spans ∧ ∃ s ∈ spans, s.OnDay (dateOf t).2.2.2

/-- When an expression fires: a day field that is the bare star leaves the decision to the other one,
and of two others one suffices. -/
def Fires (minute hour dom month dow : List Char) (t : ℕ) : Prop :=
  TimeHit minute hour month t ∧
    if dom = ['*'] then DowHit dow t
    else if dow = ['*'] then DomHit dom t
    else DomHit dom t ∨ DowHit dow t

/-- The day is taken: both day fields count as stars, or one that does not has the day. -/
def DayTaken (dom dow : List Char) (t : ℕ) : Prop :=
  IsStar dom ∧ IsStar dow ∨ ¬ IsStar dom ∧ DomHit dom t ∨ ¬ IsStar dow ∧ DowHit dow t

/-- The fields are read right for the values of a time: no wrapped addition leads to one that its
field does not denote, and reading 7 as 0 does no harm on the weekday. -/
structure ReadAt (minute hour dom month dow : List Char) (t : ℕ) : Prop where
  minute : NoStray minute 0 59 (minuteOf t)
  hour : NoStray hour 0 23 (hourOf t)
  dom : NoStray dom 1 31 (dateOf t).2.2.1
  month : NoStray month 1 12 (dateOf t).2.1
  dow : ∃ spans, ReadsWeek dow spans ∧ HarmlessOn (dow.splitOn ',') spans (dateOf t).2.2.2

/-- The bit of a weekday on which reading 7 as 0 does no harm. -/
theorem ReadAt.getLsbD_dow (h : ReadAt minute hour dom month dow t)
    (hp : parseField (zeroed '7' dow) 0 6 = .ok p) :
    (p.1.setWidth 8).getLsbD (dateOf t).2.2.2 ↔ DowHit dow t := by
  obtain ⟨mask, star⟩ := p
  obtain ⟨spans, ⟨hspells, hspans⟩, hharmless⟩ := h.dow
  obtain ⟨zeroed, hzeroed, rfl, -⟩ := (parseField_eq_ok_iff (by decide)).1 hp
  obtain ⟨rfl, hok⟩ := (reads_zeroed_iff hspells hspans).1 hzeroed
  rw [RandallFlare.getLsbD_dow hzeroed, (harmlessOn_iff hspells hspans hok).2 hharmless]
  constructor
  · exact fun hday => ⟨spans, ⟨hspells, hspans⟩, hday⟩
  · rintro ⟨spans', ⟨hspells', -⟩, hday⟩
    obtain rfl := right_unique_forall₂' (R := Spells 0 7)
      (fun _ _ _ hs hs' => hs.unique hs') hspells' hspells
    exact hday

theorem matchesAt_iff {text : String}
    (htext : splitWhitespace text.toList = [minute, hour, dom, month, dow]) {e : CronExpr}
    (he : CronExpr.parse text = .ok e) (ht : t < 2 ^ 64)
    (h : ReadAt minute hour dom month dow t) :
    e.matchesAt t ↔ TimeHit minute hour month t ∧ DayTaken dom dow t := by
  obtain ⟨p, q, r, m, u, hp, hq, hr, hm, hu, rfl⟩ := (parse_eq_ok_iff htext).1 he
  obtain ⟨hmonth, hday, hdow⟩ := dateOf_fits ht
  have hbit : ∀ {w : ℕ} (x : BitVec 64) {i : ℕ}, i < w →
      (x.setWidth w &&& (1#w <<< i) = 0 ↔ ¬ x.getLsbD i) := by
    intro w x i hi
    rw [and_shiftLeft_eq_zero _ hi, BitVec.getLsbD_setWidth]
    simp [hi]
  have hminute : p.1 &&& (1#64 <<< minuteOf t) = 0 ↔ ¬ Denoted minute 0 59 (minuteOf t) := by
    rw [and_shiftLeft_eq_zero _ (by unfold minuteOf; omega), ← h.minute.setBy_iff,
      ← getLsbD_iff_setBy (by decide) hp]
    simp
  have hhour := hbit (w := 32) q.1 (i := hourOf t) (by unfold hourOf; omega)
  have hmonths := hbit (w := 16) m.1 hmonth
  have hdom := hbit (w := 32) r.1 hday
  rw [getLsbD_iff_setBy (by decide) hq, h.hour.setBy_iff] at hhour
  rw [getLsbD_iff_setBy (by decide) hm, h.month.setBy_iff] at hmonths
  rw [getLsbD_iff_setBy (by decide) hr, h.dom.setBy_iff, ← DomHit] at hdom
  have hdows : u.1.setWidth 8 &&& (1#8 <<< (dateOf t).2.2.2) = 0 ↔ ¬ DowHit dow t := by
    rw [and_shiftLeft_eq_zero _ (by omega), ← h.getLsbD_dow hu]
    simp
  have hstar : r.2 = true ↔ IsStar dom := by rw [isStar_of_parseField (by decide) hr]; simp
  have hstar' : u.2 ↔ IsStar dow := by
    rw [isStar_of_parseField (by decide) hu, ← isStar_zeroed dow]
    simp
  rw [CronExpr.matchesAt_eq_true, TimeHit, DayTaken]
  rw [ne_eq, hminute, ne_eq, hhour, ne_eq, hmonths, ne_eq, hdom, ne_eq, hdows, hstar, hstar']
  simp only [not_not]

/-- A star with a step, which the parser takes for a star. -/
def SteppedStar (field : List Char) : Prop := IsStar field ∧ field ≠ ['*']

/-- On a day, a stepped star among the day fields makes no difference. -/
@[mk_iff]
structure DayReadRight (dom dow : List Char) (t : ℕ) : Prop where
  /-- Every day is taken instead of those of the step. -/
  dom_bare : SteppedStar dom → dow = ['*'] → DomHit dom t
  bare_dow : dom = ['*'] → SteppedStar dow → DowHit dow t
  both : SteppedStar dom → SteppedStar dow → DomHit dom t ∨ DowHit dow t
  /-- The days of the step are not taken besides those of the other field. -/
  dom_restricted : SteppedStar dom → ¬ IsStar dow → DomHit dom t → DowHit dow t
  restricted_dow : ¬ IsStar dom → SteppedStar dow → DowHit dow t → DomHit dom t

theorem dowHit_star (ht : t < 2 ^ 64) : DowHit ['*'] t := by
  refine ⟨[⟨0, 7, 1⟩], ⟨.cons (.plain .star) .nil, by decide⟩, _, mem_singleton.2 rfl, ?_⟩
  have hlt := (dateOf_fits ht).2.2.trans_lt (by decide : 6 < 7)
  exact (CronSpan.onDay_iff (.inr ⟨rfl, rfl⟩)).2 ⟨hlt, Nat.zero_le _, hlt.le, one_dvd _⟩

theorem dayTaken_iff_iff (ht : t < 2 ^ 64) : (DayTaken dom dow t ↔ if dom = ['*'] then DowHit dow t
      else if dow = ['*'] then DomHit dom t else DomHit dom t ∨ DowHit dow t) ↔
      DayReadRight dom dow t := by
  -- A table over the two fields: a bare star, a star with a step or neither.
  have hstar : IsStar ['*'] := .inl rfl
  have hdow : dow = ['*'] → DowHit dow t := fun h => h ▸ dowHit_star ht
  rw [dayReadRight_iff]
  unfold SteppedStar DayTaken
  generalize DomHit dom t = D, DowHit dow t = W at hdow ⊢
  by_cases hbare : dom = ['*']
  · by_cases hbare' : dow = ['*']
    · simp [hbare, hbare', hstar, hdow hbare']
    · by_cases hB : IsStar dow <;> simp [hbare, hbare', hstar, hB]
  · by_cases hbare' : dow = ['*']
    · by_cases hA : IsStar dom <;> simp [hbare, hbare', hstar, hA]
    · by_cases hA : IsStar dom <;> by_cases hB : IsStar dow <;> simp [hbare, hbare', hA, hB]

/-- **An expression whose fields are read right for a time fires when it is meant to if and only if
the step of a star among its day fields makes no difference on the day.** -/
theorem firesRight_iff {text : String} {minute hour dom month dow : List Char}
    (htext : splitWhitespace text.toList = [minute, hour, dom, month, dow]) {e : CronExpr}
    (he : CronExpr.parse text = .ok e) {t : ℕ} (ht : t < 2 ^ 64)
    (h : ReadAt minute hour dom month dow t) :
    (e.matchesAt t ↔ Fires minute hour dom month dow t) ↔
      (TimeHit minute hour month t → DayReadRight dom dow t) := by
  rw [matchesAt_iff htext he ht h, Fires, ← dayTaken_iff_iff ht]
  exact and_congr_right_iff

/-- The first of the month, a working day or a Sunday, at the midnight before the second of August
2026, a Sunday. -/
theorem firesRight_sunday :
    CronExpr.parse "0 0 1 * 1-5,7" = .ok (CronExpr.mk 1 1 2 0x1ffe 0x3f false false) ∧
      Fires ['0'] ['0'] ['1'] ['*'] "1-5,7".toList 1785628800 := by
  have hdom : ¬ IsStar ['1'] := by decide
  have hdow : ¬ IsStar "1-5,7".toList := by decide
  have htext : splitWhitespace "0 0 1 * 1-5,7".toList =
      [['0'], ['0'], ['1'], ['*'], "1-5,7".toList] := by
    decide
  have hweek : ReadsWeek "1-5,7".toList [⟨1, 5, 1⟩, ⟨7, 7, 1⟩] :=
    ⟨.cons (.plain (.between (a := ['1']) (b := ['5']) (by decide) (by decide)))
      (.cons (.plain (.value (by decide))) .nil), by decide⟩
  have hsplit : "1-5,7".toList.splitOn ',' = ["1-5".toList, ['7']] := by decide
  have hharmless : HarmlessOn ("1-5,7".toList.splitOn ',') [⟨1, 5, 1⟩, ⟨7, 7, 1⟩]
      (dateOf 1785628800).2.2.2 := by
    rw [hsplit]
    constructor
    · rintro ⟨x, hx, ⟨-, hlo, -⟩, -⟩
      fin_cases hx <;> cases hlo
    · rintro ⟨x, hx, -, hstep, -⟩
      fin_cases hx <;> simp at hstep
  have hread : ReadAt ['0'] ['0'] ['1'] ['*'] "1-5,7".toList 1785628800 :=
    ⟨noStray_of_not_mem (by decide) (by decide), noStray_of_not_mem (by decide) (by decide),
      noStray_of_not_mem (by decide) (by decide), noStray_of_not_mem (by decide) (by decide),
      _, hweek, hharmless⟩
  have hday : DayReadRight ['1'] "1-5,7".toList 1785628800 :=
    ⟨fun h => absurd h.1 hdom, fun _ h => absurd h.1 hdow, fun h => absurd h.1 hdom,
      fun h => absurd h.1 hdom, fun _ h => absurd h.1 hdow⟩
  have hparse : CronExpr.parse "0 0 1 * 1-5,7" =
      .ok (CronExpr.mk 1 1 2 0x1ffe 0x3f false false) := by
    rfl
  exact ⟨hparse,
    ((firesRight_iff htext hparse (by decide) hread).2 fun _ => hday).1 (by decide)⟩

/-- Every second day of the month fires on the second of January 1970 as well. -/
theorem not_firesRight_steppedStar :
    CronExpr.parse "0 0 */2 * *" = .ok (CronExpr.mk 1 1 0xaaaaaaaa 0x1ffe 0x7f true true) ∧
      ¬ ((CronExpr.mk 1 1 0xaaaaaaaa 0x1ffe 0x7f true true).matchesAt 86400 ↔
        Fires ['0'] ['0'] ['*', '/', '2'] ['*'] ['*'] 86400) := by
  refine ⟨by rfl, fun h => ?_⟩
  have hparse : parseField ['*', '/', '2'] 1 31 = .ok (0xaaaaaaaa#64, true) := by rfl
  have hfires := (h.1 (by decide)).2
  have hbit := (getLsbD_iff_setBy (by decide) hparse 2).2 hfires.setBy
  exact absurd hbit (by decide)

end RandallFlare
