/-
Acatl.DateHelper — `calculateGregorianEaster` of `date_helper.h`.

The function has the century constant of 1900 to 2199 and the weekdays of 1900 to
2099 in its numbers. It takes the first Sunday behind ITS full moon, so that it is
right when the weekdays are and the full moon is in the right week
(`calculates_iff`).
-/
import Acatl.Lib.Computus
import Mathlib.Tactic.IntervalCases

namespace Acatl.DateHelper

open Lib.Computus

/-! ## §1 calculateGregorianEaster -/

/-- The conversion to `uint16_t`. -/
def toUint16 (v : Int) : Int := v % 65536

/-- The conversion to `int16_t`. -/
def toInt16 (v : Int) : Int := v.bmod 65536

/-- `calculateGregorianEaster(year)`: month and day. -/
def calculateGregorianEaster (year : Int) : Int × Int :=
  let y := year
  let H := toUint16 ((24 + 19 * y.tmod 19).tmod 30)
  let I := toUint16 (H - H.tdiv 28)
  let J := toUint16 ((y + y.tdiv 4 + I - 13).tmod 7)
  let L := toInt16 (I - J)
  let EM := toUint16 (3 + (L + 40).tdiv 44)
  let ED := toUint16 (L + 28 - 31 * EM.tdiv 4)
  (EM, ED)

/-- The Gregorian years that `date::year` admits. -/
structure GregorianYear where
  y : Int
  gregorian : 1583 ≤ y
  admitted : y ≤ 32767

/-! ## §2 What is calculated -/

/-- `H - H / 28` is the full moon for the constant of 1900. -/
theorem moon_eq (y : Int) :
    (24 + 19 * (y % 19)) % 30 - (24 + 19 * (y % 19)) % 30 / 28 = paschalMoon y 24 := by
  have hlow : 0 ≤ y % 19 := by omega
  have hhigh : y % 19 < 19 := by omega
  rw [paschalMoon]
  generalize y % 19 = a at hlow hhigh
  interval_cases a <;> decide

theorem toUint16_eq {v : Int} (h : 0 ≤ v ∧ v < 65536) : toUint16 v = v :=
  Int.emod_eq_of_lt h.1 h.2

theorem toInt16_eq {v : Int} (h : -32768 ≤ v ∧ v < 32768) : toInt16 v = v :=
  Int.bmod_eq_of_le (by omega) (by omega)

theorem monthDay_toUint16 {L : Int} (h : -6 ≤ L ∧ L ≤ 28) :
    (toUint16 (3 + (L + 40).tdiv 44),
      toUint16 (L + 28 - 31 * (toUint16 (3 + (L + 40).tdiv 44)).tdiv 4)) =
      marchDate (28 + L) := by
  have hmonth : toUint16 (3 + (L + 40).tdiv 44) = 3 + (L + 40) / 44 := by
    rw [Int.tdiv_eq_ediv_of_nonneg (by omega)]
    exact toUint16_eq (by omega)
  have hday : toUint16 (L + 28 - 31 * (3 + (L + 40) / 44).tdiv 4) =
      L + 28 - 31 * ((3 + (L + 40) / 44) / 4) := by
    rw [Int.tdiv_eq_ediv_of_nonneg (by omega)]
    exact toUint16_eq (by omega)
  rw [hmonth, hday, marchDate]
  split <;> exact Prod.ext (by dsimp only; omega) (by dsimp only; omega)

/-- A full moon, and the Sunday behind it by the weekdays of 1900. -/
theorem calculate_eq (year : GregorianYear) :
    calculateGregorianEaster year.y =
      marchDate (28 + paschalMoon year.y 24 -
        (year.y + year.y / 4 + paschalMoon year.y 24 - 13) % 7) := by
  obtain ⟨y, hlow, hhigh⟩ := year
  have hmoon := paschalMoon_bounds y 24
  have hH : toUint16 ((24 + 19 * y.tmod 19).tmod 30) = (24 + 19 * (y % 19)) % 30 := by
    rw [Int.tmod_eq_emod_of_nonneg (by omega : 0 ≤ y), Int.tmod_eq_emod_of_nonneg (by omega)]
    exact toUint16_eq (by omega)
  have hI : toUint16 ((24 + 19 * (y % 19)) % 30 - ((24 + 19 * (y % 19)) % 30).tdiv 28) =
      paschalMoon y 24 := by
    rw [Int.tdiv_eq_ediv_of_nonneg (by omega), moon_eq]
    exact toUint16_eq (by omega)
  have hJ : toUint16 ((y + y.tdiv 4 + paschalMoon y 24 - 13).tmod 7) =
      (y + y / 4 + paschalMoon y 24 - 13) % 7 := by
    rw [Int.tdiv_eq_ediv_of_nonneg (by omega), Int.tmod_eq_emod_of_nonneg (by omega)]
    exact toUint16_eq (by omega)
  simp only [calculateGregorianEaster, hH, hI, hJ]
  have hJbounds : 0 ≤ (y + y / 4 + paschalMoon y 24 - 13) % 7 ∧
      (y + y / 4 + paschalMoon y 24 - 13) % 7 < 7 := by omega
  generalize (y + y / 4 + paschalMoon y 24 - 13) % 7 = J at hJbounds
  rw [toInt16_eq (by omega), monthDay_toUint16 (by omega), Int.add_sub_assoc]

/-- The calculated date is a Sunday if the weekdays are those of 1900. -/
theorem calculated_sunday (year : GregorianYear) :
    IsSunday year.y (28 + paschalMoon year.y 24 -
        (year.y + year.y / 4 + paschalMoon year.y 24 - 13) % 7) ↔
      (year.y / 100 - year.y / 400) % 7 = 1 := by
  rw [IsSunday, dayNumber]
  omega

/-- With the weekdays of 1900 it is the Sunday behind the full moon of 1900. -/
theorem calculated_eq (year : GregorianYear) (h : (year.y / 100 - year.y / 400) % 7 = 1) :
    28 + paschalMoon year.y 24 - (year.y + year.y / 4 + paschalMoon year.y 24 - 13) % 7 =
      sundayAfter year.y (21 + paschalMoon year.y 24) := by
  rw [sundayAfter, dayNumber]
  omega

/-! ## §3 When it is Easter -/

/-- The date is that of Easter; so it is a Sunday from March 22 to April 25. -/
structure Calculates (year : GregorianYear) : Prop where
  date : calculateGregorianEaster year.y = easter year.y
  sunday : ∃ day, calculateGregorianEaster year.y = marchDate day ∧ IsSunday year.y day ∧
    22 ≤ day ∧ day ≤ 56

theorem calculates_of_date {year : GregorianYear}
    (h : calculateGregorianEaster year.y = easter year.y) : Calculates year :=
  ⟨h, h ▸ easter_isSunday year.y⟩

theorem calculates_of_week {year : GregorianYear}
    (hcentury : (year.y / 100 - year.y / 400) % 7 = 1)
    (hweek : week year.y (21 + paschalMoon year.y 24) =
      week year.y (21 + paschalMoon year.y (centuryConstant year.y))) : Calculates year := by
  refine calculates_of_date ?_
  rw [calculate_eq, calculated_eq year hcentury, easter_eq, (sundayAfter_eq_iff ..).mpr hweek]

/-- From 1900 to 2099 every date is right. -/
theorem calculates_of_1900 {year : GregorianYear} (hlow : 1900 ≤ year.y) (hhigh : year.y < 2100) :
    Calculates year := by
  have hcentury : year.y / 100 = 19 ∧ year.y / 400 = 4 ∨ year.y / 100 = 20 ∧ year.y / 400 = 5 := by
    omega
  have hconstant : centuryConstant year.y = 24 := by
    simp only [centuryConstant]
    omega
  exact calculates_of_week (by omega) (by rw [hconstant])

/-- **When the date is Easter.** The leap days that the centuries have left out put the
weekdays where they are from 1900 to 2099, and the full moon for the constant of 1900
is in the week of the one for the century. -/
theorem calculates_iff (year : GregorianYear) :
    Calculates year ↔ (year.y / 100 - year.y / 400) % 7 = 1 ∧
      week year.y (21 + paschalMoon year.y 24) =
        week year.y (21 + paschalMoon year.y (centuryConstant year.y)) := by
  refine ⟨fun h => ?_, fun ⟨hcentury, hweek⟩ => calculates_of_week hcentury hweek⟩
  have hdate := h.date
  rw [calculate_eq, easter_eq] at hdate
  have hday := marchDate_injective hdate
  have hcentury := (calculated_sunday year).mp (hday ▸ sundayAfter_isSunday ..)
  rw [calculated_eq year hcentury] at hday
  exact ⟨hcentury, (sundayAfter_eq_iff ..).mp hday⟩

/-- In 2100 Easter is March 28; what is calculated is the Saturday before. -/
theorem not_always_calculates : ¬ ∀ year : GregorianYear, Calculates year := by
  intro h
  have hdate := (h ⟨2100, by decide, by decide⟩).date
  exact absurd hdate (by decide)

end Acatl.DateHelper
