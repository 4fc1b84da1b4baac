import RandallFlare.Lib.Gregorian

/-!
# Dates from day counts

`civil` of `rf-core/src/cron.rs`, which computes a date with truncating divisions by the lengths of
eras, years and months.  For day counts from 0 on it is the Gregorian calendar as long as the sum
with the days before 1970 fits into 64 bits.

* `i64`, `asU32`: the machine's numbers;
* `civil`;
* `civil_gregorian` is the result.
-/

namespace RandallFlare

open Gregorian

/-- A sum or a difference of 64-bit numbers, which wraps around. -/
def i64 (v : ℤ) : ℤ := v.bmod (2 ^ 64)

/-- A cast to 32 bits. -/
def asU32 (v : ℤ) : ℕ := (v % 2 ^ 32).toNat

variable {v : ℤ}

theorem i64_of_fits (h : -2 ^ 63 ≤ v) (h' : v < 2 ^ 63) : i64 v = v :=
  Int.bmod_eq_of_le (by omega) (by omega)

theorem asU32_of_fits (h : 0 ≤ v) (h' : v < 2 ^ 32) : asU32 v = v.toNat := by
  rw [asU32, Int.emod_eq_of_lt h h']

theorem asU32_of_mem {k : ℕ} (hk : k < 2 ^ 32) (h : v.toNat ∈ Set.Icc 1 k) : asU32 v = v.toNat := by
  obtain ⟨h1, hk'⟩ := h
  exact asU32_of_fits (by omega) (by omega)

/-- The year, the month from 1, the day from 1 and the weekday from Sunday, of a count of days since
the first of January 1970. -/
def civil (days : ℤ) : ℤ × ℕ × ℕ × ℕ :=
  let dow := (days % 7 + 4) % 7
  let z := i64 (days + 719468)
  let era := (if z ≥ 0 then z else i64 (z - 146096)).tdiv 146097
  let doe := i64 (z - era * 146097)
  let yoe := (doe - doe / 1460 + doe / 36524 - doe / 146096) / 365
  let y := yoe + era * 400
  let doy := doe - (365 * yoe + yoe / 4 - yoe / 100)
  let mp := (5 * doy + 2) / 153
  let d := doy - (153 * mp + 2) / 5 + 1
  let m := if mp < 10 then mp + 3 else mp - 9
  (if m ≤ 2 then y + 1 else y, asU32 m, asU32 d, asU32 dow)

/-! ### The year of an era -/

/-- The days of an era up to a day, without those that only leap years have. -/
def commonDays (doe : ℕ) : ℕ := doe - doe / 1460 + doe / 36524 - doe / 146096

theorem commonDays_mono : Monotone commonDays := by
  refine monotone_nat_of_le_succ fun doe => ?_
  unfold commonDays
  omega

/-- The first of March of a year of an era. -/
def eraStart (yoe : ℕ) : ℕ := 365 * yoe + yoe / 4 - yoe / 100 + yoe / 400

theorem eraStart_cast (yoe : ℕ) : (eraStart yoe : ℤ) = yearStart yoe := by
  unfold eraStart yearStart
  omega

/-- The division by 365 is right on the first and on the last day of every year. -/
theorem commonDays_bounds : ∀ yoe < 400, 365 * yoe ≤ commonDays (eraStart yoe) ∧
    commonDays (eraStart (yoe + 1) - 1) < 365 * (yoe + 1) := by
  decide +kernel

/-- It is right on every day between them, since it is monotone. -/
theorem commonDays_div {doe yoe : ℕ} (hyoe : yoe < 400) (hlo : eraStart yoe ≤ doe)
    (hhi : doe < eraStart (yoe + 1)) : commonDays doe / 365 = yoe := by
  obtain ⟨hfirst, hlast⟩ := commonDays_bounds yoe hyoe
  have hle := commonDays_mono hlo
  have hge := commonDays_mono (show doe ≤ eraStart (yoe + 1) - 1 by omega)
  omega

theorem exists_yearOfEra {doe : ℕ} (h : doe < 146097) :
    ∃ yoe < 400, eraStart yoe ≤ doe ∧ doe < eraStart (yoe + 1) := by
  have hex : ∃ k, doe < eraStart k := ⟨400, h⟩
  have hpos : Nat.find hex ≠ 0 := fun h0 => by
    have := Nat.find_spec hex
    rw [h0] at this
    exact absurd this (Nat.not_lt_zero _)
  have hle : Nat.find hex ≤ 400 := Nat.find_min' hex h
  refine ⟨Nat.find hex - 1, by omega, not_lt.1 (Nat.find_min hex (by omega)), ?_⟩
  rw [Nat.sub_add_cancel (Nat.pos_of_ne_zero hpos)]
  exact Nat.find_spec hex

/-- The year of a day of an era, as the source computes it. -/
theorem yearOfEra_eq {doe : ℤ} (h0 : 0 ≤ doe) (h : doe < 146097) :
    ∃ yoe : ℤ, (doe - doe / 1460 + doe / 36524 - doe / 146096) / 365 = yoe ∧ 0 ≤ yoe ∧ yoe < 400 ∧
      yearStart yoe ≤ doe ∧ doe < yearStart (yoe + 1) := by
  obtain ⟨d, rfl⟩ := Int.eq_ofNat_of_zero_le h0
  obtain ⟨yoe, hyoe, hlo, hhi⟩ := exists_yearOfEra (show d < 146097 by omega)
  have hdiv : ((d : ℤ) - d / 1460 + d / 36524 - d / 146096) / 365 = yoe := by
    rw [← commonDays_div hyoe hlo hhi, commonDays]
    clear hlo hhi
    omega
  refine ⟨yoe, hdiv, by omega, by omega, ?_, ?_⟩
  · rw [← eraStart_cast]
    exact_mod_cast hlo
  · rw [← Nat.cast_add_one, ← eraStart_cast]
    exact_mod_cast hhi

/-! ### The calendar -/

/-- A date with its weekday. -/
def withWeekday (d : Date) (dow : ℕ) : ℤ × ℕ × ℕ × ℕ := (d.year, d.month, d.day, dow)

/-- The date is that of a day of a year that begins in March. -/
theorem civil_eq {n : ℤ} (h0 : 0 ≤ n) (h : n + 719468 < 2 ^ 63) :
    ∃ y doy, 0 ≤ doy ∧ doy < yearLength y ∧ yearStart y + doy = n + 719468 ∧
      civil n = withWeekday (ofMarch y doy) ((n + 4) % 7).toNat := by
  have hz : i64 (n + 719468) = n + 719468 := i64_of_fits (by omega) h
  have hera : (n + 719468).tdiv 146097 = (n + 719468) / 146097 :=
    Int.tdiv_eq_ediv_of_nonneg (by omega)
  have hdoe : i64 (n + 719468 - (n + 719468) / 146097 * 146097) = (n + 719468) % 146097 := by
    rw [i64_of_fits (by omega) (by omega)]
    omega
  obtain ⟨yoe, hyoe, hyoe0, hyoe400, hlo, hhi⟩ := yearOfEra_eq
    (show 0 ≤ (n + 719468) % 146097 by omega) (by omega)
  have hdoy : (n + 719468) % 146097 - (365 * yoe + yoe / 4 - yoe / 100) =
      (n + 719468) % 146097 - yearStart yoe := by
    unfold yearStart
    omega
  have hera_start := yearStart_add_era yoe ((n + 719468) / 146097)
  have hera_next := yearStart_add_era (yoe + 1) ((n + 719468) / 146097)
  have hlen := yearStart_add_one (yoe + (n + 719468) / 146097 * 400)
  rw [show yoe + (n + 719468) / 146097 * 400 + 1 = yoe + 1 + (n + 719468) / 146097 * 400 by ring]
    at hlen
  refine ⟨yoe + (n + 719468) / 146097 * 400, (n + 719468) % 146097 - yearStart yoe, by omega,
    by omega, by omega, ?_⟩
  obtain ⟨hmonth, hday⟩ := month_day_ofMarch (y := yoe + (n + 719468) / 146097 * 400)
    (show 0 ≤ (n + 719468) % 146097 - yearStart yoe by omega) (by omega)
  simp only [civil, hz, if_pos (show n + 719468 ≥ 0 by omega), hera, hdoe, hyoe, hdoy]
  rw [asU32_of_mem (by decide) hmonth, asU32_of_mem (by decide) hday,
    asU32_of_fits (by omega) (by omega)]
  have hdow : (n % 7 + 4) % 7 = (n + 4) % 7 := by omega
  rw [hdow]
  rfl

/-- The day after a date, with the next weekday. -/
def nextCivil (d : ℤ × ℕ × ℕ × ℕ) : ℤ × ℕ × ℕ × ℕ :=
  withWeekday (Date.next ⟨d.1, d.2.1, d.2.2.1⟩) ((d.2.2.2 + 1) % 7)

theorem civil_succ {n : ℤ} (h0 : 0 ≤ n) (h : n + 1 + 719468 < 2 ^ 63) :
    civil (n + 1) = nextCivil (civil n) := by
  obtain ⟨y, doy, hdoy0, hdoy, hstart, hcivil⟩ := civil_eq h0 (by omega)
  obtain ⟨y', doy', hdoy0', hdoy', hstart', hcivil'⟩ := civil_eq (n := n + 1) (by omega) h
  have hnext : (ofMarch y doy).next = ofMarch y' doy' := by
    rcases year_succ_cases hdoy0 hdoy hdoy0' hdoy' (by omega) with ⟨rfl, rfl⟩ | ⟨rfl, rfl, rfl⟩
    · exact next_ofMarch hdoy0 hdoy'
    · exact next_ofMarch_last
  have hdow : (((n + 4) % 7).toNat + 1) % 7 = ((n + 1 + 4) % 7).toNat := by omega
  rw [hcivil', hcivil, ← hnext, ← hdow]
  rfl

/-- **For day counts whose sum with the days before 1970 fits into 64 bits, `civil` is the Gregorian
calendar from Thursday, the first of January 1970.** -/
theorem civil_gregorian : civil 0 = (1970, 1, 1, 4) ∧
      (∀ n : ℤ, 0 ≤ n → n + 1 + 719468 < 2 ^ 63 → civil (n + 1) = nextCivil (civil n)) ∧
      ∀ n : ℤ, 0 ≤ n → n + 719468 < 2 ^ 63 →
        (civil n).2.1 ∈ Set.Icc 1 12 ∧ (civil n).2.2.1 ∈ Set.Icc 1 31 := by
  refine ⟨by decide, fun n h0 h => civil_succ h0 h, fun n h0 h => ?_⟩
  obtain ⟨y, doy, hdoy0, hdoy, -, hcivil⟩ := civil_eq h0 h
  rw [hcivil]
  exact month_day_ofMarch hdoy0 hdoy

/-- The end of February 2100, which is no leap year, on a Sunday. -/
theorem civil_gregorian_century :
    civil 47540 = (2100, 2, 28, 0) ∧ nextCivil (civil 47540) = (2100, 3, 1, 1) ∧
      civil (47540 + 1) = nextCivil (civil 47540) :=
  ⟨by decide, by decide, civil_gregorian.2.1 47540 (by decide) (by decide)⟩

/-- The last day count of the result and the one after it, where the sum wraps around. -/
theorem civil_overflow : civil (2 ^ 63 - 719468) ≠ nextCivil (civil (2 ^ 63 - 1 - 719468)) := by
  decide +kernel

end RandallFlare
