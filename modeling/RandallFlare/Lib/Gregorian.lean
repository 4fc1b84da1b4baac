import Mathlib.Tactic

/-!
# The Gregorian calendar

Dates and the day that follows one, under the leap-year rule.  A computation of dates from day
numbers is easier with years that begin on the first of March, since the day that only some years
have is then their last one.

* `leap`, `daysInMonth`, `Date.next`.
-/

namespace Gregorian

structure Date where
  year : ℤ
  month : ℕ
  day : ℕ
  deriving DecidableEq

def leap (y : ℤ) : Prop := y % 4 = 0 ∧ (y % 100 ≠ 0 ∨ y % 400 = 0)

instance (y : ℤ) : Decidable (leap y) := inferInstanceAs (Decidable (_ ∧ _))

def daysInMonth (y : ℤ) : ℕ → ℕ
  | 2 => if leap y then 29 else 28
  | 4 | 6 | 9 | 11 => 30
  | _ => 31

/-- The day after a date. -/
def Date.next (d : Date) : Date :=
  if d.day < daysInMonth d.year d.month then ⟨d.year, d.month, d.day + 1⟩
  else if d.month < 12 then ⟨d.year, d.month + 1, 1⟩
  else ⟨d.year + 1, 1, 1⟩

/-! ### Years that begin in March -/

/-- The first of March of a year, in days since that of the year 0. -/
def yearStart (y : ℤ) : ℤ := 365 * y + y / 4 - y / 100 + y / 400

/-- The days from the first of March of a year to the last of February of the next one. -/
def yearLength (y : ℤ) : ℤ := if leap (y + 1) then 366 else 365

theorem yearLength_le (y : ℤ) : yearLength y ≤ 366 := by
  unfold yearLength
  split_ifs <;> omega

theorem yearStart_add_one (y : ℤ) : yearStart (y + 1) = yearStart y + yearLength y := by
  unfold yearStart yearLength leap
  split_ifs with h <;> omega

/-- The calendar repeats after 400 years. -/
theorem yearStart_add_era (y era : ℤ) : yearStart (y + era * 400) = yearStart y + era * 146097 := by
  have h4 : (y + era * 400) / 4 = y / 4 + era * 100 := by omega
  have h100 : (y + era * 400) / 100 = y / 100 + era * 4 := by omega
  have h400 : (y + era * 400) / 400 = y / 400 + era := by omega
  rw [yearStart, yearStart, h4, h100, h400]
  ring

variable {y doy mp : ℤ}

theorem yearStart_le {z : ℤ} (h : y < z) : yearStart (y + 1) ≤ yearStart z := by
  unfold yearStart
  omega

/-- The date of a day of a year that begins in March: `mp` counts its months from 0. -/
def ofMarch (y doy : ℤ) : Date :=
  let mp := (5 * doy + 2) / 153
  let d := doy - (153 * mp + 2) / 5 + 1
  let m := if mp < 10 then mp + 3 else mp - 9
  ⟨if m ≤ 2 then y + 1 else y, m.toNat, d.toNat⟩

/-- The days of a year before one of its months. -/
def monthStart (mp : ℤ) : ℤ := (153 * mp + 2) / 5

theorem ofMarch_eq (h0 : 0 ≤ mp) (h11 : mp ≤ 11) (hlo : monthStart mp ≤ doy)
    (hhi : doy < monthStart (mp + 1)) :
    ofMarch y doy = ⟨if mp < 10 then y else y + 1, (if mp < 10 then mp + 3 else mp - 9).toNat,
      (doy - monthStart mp + 1).toNat⟩ := by
  have hmp : (5 * doy + 2) / 153 = mp := by
    unfold monthStart at hlo hhi
    omega
  have hyear : (if (if mp < 10 then mp + 3 else mp - 9) ≤ 2 then y + 1 else y) =
      if mp < 10 then y else y + 1 := by
    split_ifs <;> omega
  rw [ofMarch, hmp, hyear]
  rfl

theorem exists_month (h0 : 0 ≤ doy) (h : doy ≤ 365) :
    ∃ mp, 0 ≤ mp ∧ mp ≤ 11 ∧ monthStart mp ≤ doy ∧ doy < monthStart (mp + 1) := by
  unfold monthStart
  exact ⟨(5 * doy + 2) / 153, by omega, by omega, by omega, by omega⟩

/-- A month ends where the next one begins, and the last one, February, with the year. -/
theorem daysInMonth_eq (h0 : 0 ≤ mp) (h11 : mp ≤ 11) :
    (daysInMonth (if mp < 10 then y else y + 1) (if mp < 10 then mp + 3 else mp - 9).toNat : ℤ) =
      min (monthStart (mp + 1)) (yearLength y) - monthStart mp := by
  unfold yearLength
  interval_cases mp <;> simp [daysInMonth, monthStart] <;> split_ifs <;> simp

theorem month_day_ofMarch (h0 : 0 ≤ doy) (h : doy < yearLength y) :
    (ofMarch y doy).month ∈ Set.Icc 1 12 ∧ (ofMarch y doy).day ∈ Set.Icc 1 31 := by
  obtain ⟨mp, hmp0, hmp11, hlo, hhi⟩ := exists_month h0 (by have := yearLength_le y; omega)
  rw [ofMarch_eq hmp0 hmp11 hlo hhi]
  unfold monthStart at hlo hhi ⊢
  refine ⟨⟨?_, ?_⟩, ?_, ?_⟩
  · dsimp only
    split_ifs <;> omega
  · dsimp only
    split_ifs <;> omega
  · dsimp only
    omega
  · dsimp only
    omega

/-- The day after a day that is not the last of its year. -/
theorem next_ofMarch (h0 : 0 ≤ doy) (h : doy + 1 < yearLength y) :
    (ofMarch y doy).next = ofMarch y (doy + 1) := by
  have hlen := yearLength_le y
  obtain ⟨mp, hmp0, hmp11, hlo, hhi⟩ := exists_month h0 (by omega)
  have hdays := daysInMonth_eq (y := y) hmp0 hmp11
  rw [ofMarch_eq hmp0 hmp11 hlo hhi, Date.next]
  dsimp only
  by_cases hsame : doy + 1 < monthStart (mp + 1)
  · rw [if_pos (by omega), ofMarch_eq hmp0 hmp11 (by omega) hsame]
    congr 1
    omega
  · have hnext : doy + 1 = monthStart (mp + 1) := by omega
    have hmp : mp ≤ 10 := by
      unfold monthStart at hnext
      omega
    have hhi' : doy + 1 < monthStart (mp + 1 + 1) := by
      rw [hnext]
      unfold monthStart
      omega
    rw [if_neg (by omega), ofMarch_eq (by omega) (by omega) hnext.ge hhi', hnext, sub_self]
    interval_cases mp <;> simp

/-- The day after the last of February. -/
theorem next_ofMarch_last : (ofMarch y (yearLength y - 1)).next = ofMarch (y + 1) 0 := by
  unfold yearLength
  split_ifs with h
  · simp [ofMarch, Date.next, daysInMonth, h]
  · simp [ofMarch, Date.next, daysInMonth, h]

/-- The next day number lies in the same year, or it is the first of the next year. -/
theorem year_succ_cases {y' doy' : ℤ} (h0 : 0 ≤ doy) (h : doy < yearLength y)
    (h0' : 0 ≤ doy') (h' : doy' < yearLength y')
    (hsucc : yearStart y' + doy' = yearStart y + doy + 1) :
    (y' = y ∧ doy' = doy + 1) ∨ (y' = y + 1 ∧ doy = yearLength y - 1 ∧ doy' = 0) := by
  have hy := yearStart_add_one y
  have hy' := yearStart_add_one y'
  rcases lt_trichotomy y' y with hlt | rfl | hgt
  · have := yearStart_le hlt
    omega
  · exact .inl ⟨rfl, by omega⟩
  · have heq : y' = y + 1 := by
      by_contra hne
      have := yearStart_le (show y + 1 < y' by omega)
      have := yearStart_add_one (y + 1)
      have : 0 < yearLength (y + 1) := by unfold yearLength; split_ifs <;> omega
      omega
    subst heq
    exact .inr ⟨rfl, by omega, by omega⟩

end Gregorian
